import Jiajia.Merge
import Jiajia.TreeCast
import Jiajia.Lib.Layout

/-!
# Grants on the wire

`grantlock` and `grantbarr` write the notices of a lock into the bytes of INVLD messages
and a last ACQGRANT or BARRGRANT, all in one message slot; `invalidate` reads them back.
-/

namespace Jiajia.Grants

open Bytes Fifo Transition
open TreeCast (JiaMsg Body bsendmsg oneByOne castSystem)

abbrev ACQGRANT : Nat := 5
abbrev INVLD : Nat := 6
abbrev BARRGRANT : Nat := 8

/-- The lists `savewtnt` builds; `from` is a host or `Maxhosts`. -/
inductive Built : WtntList → Prop
  | empty : Built .empty
  | save {l : WtntList} (h : Built l) (addr : Addr) (mig : BitVec 32) {fromPid : Nat}
      (hfrom : fromPid ≤ Maxhosts) (scope : BitVec 32) : Built (l.save addr mig fromPid scope)

theorem Built.fromPid_le {l : WtntList} (h : Built l) : ∀ e ∈ l.entries, e.fromPid ≤ Maxhosts := by
  induction h with
  | empty => simp
  | save h addr mig hfrom scope ih =>
      intro e he
      rcases WtntList.of_mem_save he with ⟨hold, -⟩ | ⟨-, rfl⟩ | ⟨e₀, -, -, rfl⟩
      · exact ih e hold
      · exact hfrom
      · exact Nat.le_refl _

/-! ## Writing -/

def appendmsg (msg : JiaMsg) (str : List Byte) : Result JiaMsg := do
  jiaAssert (msg.data.length + str.length ≤ Maxmsgsize) "Message too large"
  return { msg with data := msg.data ++ str }

/-- Address, `from` and `mig` of a notice. -/
def appendEntry (msg : JiaMsg) (e : WtntEntry) : Result JiaMsg := do
  let msg ← appendmsg msg (toLE Addrbytes e.addr.toNat)
  let msg ← appendmsg msg (toLE Intbytes e.fromPid)
  appendmsg msg (toLE Intbytes e.mig.toNat)

def appendEntries : JiaMsg → List WtntEntry → Result JiaMsg
  | msg, [] => .ok msg
  | msg, e :: es => do
      let msg ← appendEntry msg e
      appendEntries msg es

/-- The loop of `appendlockwtnts` and `appendbarrwtnts`, with their size test and their
choice of entries. -/
def appendwtnts (k : Packing) : JiaMsg → List WtntNode → Result (JiaMsg × List WtntNode)
  | msg, [] => .ok (msg, [])
  | msg, n :: ns =>
      if k.fits msg.data.length n then do
        let msg ← appendEntries msg (n.entries.filter k.sel)
        appendwtnts k msg ns
      else .ok (msg, n :: ns)

/-- What the message slot holds after it was sent: what was enqueued last. -/
def after (out : Outbox JiaMsg) (msg : JiaMsg) : JiaMsg := (out.getLast?.map Prod.snd).getD msg

/-- The loop of `grantlock` and `grantbarr`: a message that cannot take the next node is
sent as INVLD, and the slot is cut back to the lock. -/
def grantLoop (k : Packing) (send : JiaMsg → Outbox JiaMsg) (last : Nat) :
    Nat → JiaMsg → List WtntNode → Result (Outbox JiaMsg)
  | 0, _, _ => .error (.undefined "endless message stream")
  | fuel + 1, msg, ns => do
      let (msg, left) ← appendwtnts k msg ns
      if left.isEmpty then return send { msg with op := last }
      else do
        let msg := { msg with op := INVLD }
        let slot := after (send msg) msg
        let rest ← grantLoop k send last fuel { slot with data := slot.data.take Intbytes } left
        return send msg ++ rest

/-- `move_msg_to_outqueue(slot, &outqueue)` -/
def toOutqueue (msg : JiaMsg) : Outbox JiaMsg := [(msg.topid, msg)]

/-- `grantlock(lock, toproc, acqscope)`; `slot` is what the message slot held before. -/
def grantlock (homehost : Addr → Nat) (pid lock toproc : Nat) (acqscope scope : BitVec 32)
    (slot : JiaMsg) (wtntp : WtntList) : Result (Outbox JiaMsg) := do
  let grant := { slot with frompid := pid, topid := toproc, scope := scope, data := [] }
  let grant ← appendmsg grant (toLE Intbytes lock)
  grantLoop (appendLockWtnts homehost toproc acqscope) toOutqueue ACQGRANT
    (wtntp.nodes.length + 1) grant wtntp.nodes

/-- `broadcast(slot)` -/
def broadcast (cfg : Config) (pid : Nat) (msg : JiaMsg) : Outbox JiaMsg :=
  if cfg.bCast then bsendmsg cfg pid msg else oneByOne cfg msg

/-- `grantbarr(lock)` -/
def grantbarr (cfg : Config) (pid lock : Nat) (scope : BitVec 32) (slot : JiaMsg)
    (wtntp : WtntList) : Result (Outbox JiaMsg) := do
  let grant := { slot with frompid := pid, topid := pid, scope := scope, data := [] }
  let grant ← appendmsg grant (toLE Intbytes lock)
  grantLoop appendBarrWtnts (broadcast cfg pid) BARRGRANT (wtntp.nodes.length + 1) grant wtntp.nodes

/-! ## Reading -/

/-- `stol(data + off)` -/
def stol (b : Buffer) (off : Nat) : BitVec 64 := BitVec.ofNat 64 (readLE b 8 off)

/-- `(int)stol(data + off)` -/
def stoi (b : Buffer) (off : Nat) : BitVec 32 := (stol b off).setWidth 32

/-- The loop of `invalidate`: the notices it reads from offset `datai` on. -/
def noticesFrom (b : Buffer) (size datai : Nat) : List GrantNotice :=
  if datai < size then
    ⟨stol b datai, (stoi b (datai + Addrbytes)).toNat, stoi b (datai + Addrbytes + Intbytes)⟩ ::
      noticesFrom b size (datai + Addrbytes + Intbytes + Intbytes)
  else []
termination_by size - datai
decreasing_by
  simp only [Addrbytes, Intbytes]
  omega

/-- What `invalidate` reads from a message: the lock and the notices. -/
def invalidate (b : Buffer) (size : Nat) : Nat × List GrantNotice :=
  ((stoi b 0).toNat, noticesFrom b size Intbytes)

/-! ## The bytes of a message -/

def entryBytes (e : WtntEntry) : List Byte :=
  toLE Addrbytes e.addr.toNat ++ toLE Intbytes e.fromPid ++ toLE Intbytes e.mig.toNat

/-- The lock and the notices `es`. -/
def dataBytes (lock : Nat) (es : List WtntEntry) : List Byte :=
  toLE Intbytes lock ++ es.flatMap entryBytes

@[simp] theorem length_entryBytes (e : WtntEntry) : (entryBytes e).length = 16 := by
  rw [entryBytes, List.length_append, List.length_append, length_toLE, length_toLE, length_toLE]
  rfl

theorem length_flatMap_entryBytes (es : List WtntEntry) :
    (es.flatMap entryBytes).length = 16 * es.length := by
  induction es with
  | nil => rfl
  | cons e es ih =>
      rw [List.flatMap_cons, List.length_append, ih, length_entryBytes, List.length_cons]
      ring

theorem length_dataBytes (lock : Nat) (es : List WtntEntry) :
    (dataBytes lock es).length = Intbytes + 16 * es.length := by
  rw [dataBytes, List.length_append, length_flatMap_entryBytes, length_toLE]

theorem stol_at {b : Buffer} {off : Nat} {a : Addr} (h : At b off (toLE Addrbytes a.toNat)) :
    stol b off = a := by
  have hread : readLE b 8 off = a.toNat % 256 ^ 8 := h.readLE
  have hlt : a.toNat < 256 ^ 8 := a.isLt
  rw [stol, hread, Nat.mod_eq_of_lt hlt, BitVec.ofNat_toNat, BitVec.setWidth_eq]

theorem stoi_at {b : Buffer} {off v : Nat} (h : At b off (toLE Intbytes v)) :
    (stoi b off).toNat = v % 2 ^ 32 := by
  have hlow : readLE b (4 + 4) off % 256 ^ 4 = v % 256 ^ 4 := h.readLE_low
  have hpow : (256 : Nat) ^ 4 = 2 ^ 32 := by norm_num
  rw [hpow] at hlow
  rw [stoi, stol, BitVec.toNat_setWidth, BitVec.toNat_ofNat, Nat.mod_mod_of_dvd _ (by norm_num)]
  exact hlow

theorem noticesFrom_at {b : Buffer} {size off : Nat} {es : List WtntEntry}
    (hfrom : ∀ e ∈ es, e.fromPid ≤ Maxhosts) (h : At b off (es.flatMap entryBytes))
    (hsize : size = off + 16 * es.length) :
    noticesFrom b size off = es.map WtntEntry.toGrant := by
  induction es generalizing off with
  | nil =>
      rw [noticesFrom, if_neg (by simp [hsize])]
      rfl
  | cons e es ih =>
      rw [List.flatMap_cons, at_append, length_entryBytes, entryBytes, at_append, at_append] at h
      obtain ⟨⟨⟨haddr, hpid⟩, hmig⟩, hrest⟩ := h
      simp only [List.length_append, length_toLE, ← Nat.add_assoc] at hpid hmig
      have hlt : off < size := by
        rw [hsize, List.length_cons]
        omega
      have hle : e.fromPid ≤ Maxhosts := hfrom e List.mem_cons_self
      have hpid' : (stoi b (off + Addrbytes)).toNat = e.fromPid := by
        rw [stoi_at hpid, Nat.mod_eq_of_lt (hle.trans_lt (by decide))]
      have hmig' : stoi b (off + Addrbytes + Intbytes) = e.mig := by
        apply BitVec.eq_of_toNat_eq
        rw [stoi_at hmig, Nat.mod_eq_of_lt e.mig.isLt]
      have htail := ih (fun e' he' => hfrom e' (List.mem_cons_of_mem _ he')) hrest
        (by rw [hsize, List.length_cons]; ring)
      have hnext : off + Addrbytes + Intbytes + Intbytes = off + 16 := by ring
      rw [noticesFrom, if_pos hlt, stol_at haddr, hpid', hmig', hnext, htail]
      rfl

/-- A message decodes to what was written, whatever stands behind its bytes. -/
theorem invalidate_dataBytes {lock : Nat} {es : List WtntEntry} (hlock : lock < 2 ^ 32)
    (hfrom : ∀ e ∈ es, e.fromPid ≤ Maxhosts) (rest : Buffer) :
    invalidate (overlay (dataBytes lock es) rest) (dataBytes lock es).length =
      (lock, es.map WtntEntry.toGrant) := by
  have hat := at_append.mp (at_overlay (dataBytes lock es) rest)
  rw [length_toLE, Nat.zero_add] at hat
  rw [invalidate, stoi_at hat.1, Nat.mod_eq_of_lt hlock,
    noticesFrom_at hfrom hat.2 (length_dataBytes lock es)]

/-! ## What the loop sends -/

theorem appendmsg_eq (msg : JiaMsg) (str : List Byte) :
    appendmsg msg str = if msg.data.length + str.length ≤ Maxmsgsize then
      .ok { msg with data := msg.data ++ str } else .error (.assert "Message too large") := by
  unfold appendmsg jiaAssert
  split <;> rfl

/-- Two appends are one, whether the assert fires or not. -/
theorem appendmsg_append (msg : JiaMsg) (xs ys : List Byte) :
    (do
      let msg ← appendmsg msg xs
      appendmsg msg ys) = appendmsg msg (xs ++ ys) := by
  rw [appendmsg_eq, appendmsg_eq, List.length_append]
  by_cases hx : msg.data.length + xs.length ≤ Maxmsgsize
  · rw [if_pos hx]
    change appendmsg _ ys = _
    rw [appendmsg_eq, List.length_append]
    simp only [Nat.add_assoc, List.append_assoc]
  · rw [if_neg hx, if_neg (by omega)]
    rfl

theorem appendEntry_eq (msg : JiaMsg) (e : WtntEntry) :
    appendEntry msg e = appendmsg msg (entryBytes e) := by
  rw [entryBytes, ← appendmsg_append, ← appendmsg_append]
  unfold appendEntry
  cases appendmsg msg (toLE Addrbytes e.addr.toNat) <;> rfl

theorem appendEntries_eq {msg : JiaMsg} (hsize : msg.data.length ≤ Maxmsgsize)
    (es : List WtntEntry) : appendEntries msg es = appendmsg msg (es.flatMap entryBytes) := by
  induction es generalizing msg with
  | nil =>
      have hroom : msg.data.length + ([] : List Byte).length ≤ Maxmsgsize := hsize
      rw [List.flatMap_nil, appendmsg_eq, if_pos hroom, List.append_nil]
      rfl
  | cons e es ih =>
      rw [List.flatMap_cons, ← appendmsg_append, appendEntries, appendEntry_eq, appendmsg_eq]
      by_cases hfit : msg.data.length + (entryBytes e).length ≤ Maxmsgsize
      · rw [if_pos hfit]
        exact ih (by rw [List.length_append]; exact hfit)
      · rw [if_neg hfit]
        rfl

/-- A packing whose entries take what `appendEntry` writes. -/
abbrev Wide (k : Packing) : Prop := k.unit = 16

theorem appendwtnts_eq {k : Packing} (hk : Wide k) (msg : JiaMsg)
    (hsize : msg.data.length ≤ Maxmsgsize) (ns : List WtntNode) :
    appendwtnts k msg ns = (do
      let (es, left) ← k.append msg.data.length ns
      return ({ msg with data := msg.data ++ es.flatMap entryBytes }, left)) := by
  induction ns generalizing msg with
  | nil =>
      rw [appendwtnts, Packing.append]
      change _ = Except.ok ({ msg with data := msg.data ++ [] }, [])
      rw [List.append_nil]
  | cons n ns ih =>
      rw [appendwtnts, Packing.append]
      by_cases hfits : k.fits msg.data.length n = true
      · rw [if_pos hfits, if_pos hfits, appendEntries_eq hsize, appendmsg_eq,
          length_flatMap_entryBytes]
        simp only [hk, jiaAssert]
        by_cases hroom : msg.data.length + 16 * (n.entries.filter k.sel).length ≤ Maxmsgsize
        · rw [if_pos hroom, if_pos hroom]
          have hlen : (msg.data ++ (n.entries.filter k.sel).flatMap entryBytes).length =
              msg.data.length + 16 * (n.entries.filter k.sel).length := by
            rw [List.length_append, length_flatMap_entryBytes]
          change appendwtnts k _ ns = _
          rw [ih _ (by rw [hlen]; exact hroom), hlen]
          change _ = (do
            let (es, left) ← (do
              let (rest, left) ←
                k.append (msg.data.length + 16 * (n.entries.filter k.sel).length) ns
              return (n.entries.filter k.sel ++ rest, left))
            return ({ msg with data := msg.data ++ es.flatMap entryBytes }, left))
          cases k.append (msg.data.length + 16 * (n.entries.filter k.sel).length) ns with
          | error e => rfl
          | ok r =>
              change Except.ok _ = Except.ok _
              simp
        · rw [if_neg hroom, if_neg hroom]
          rfl
      · rw [if_neg hfits, if_neg hfits]
        change _ = Except.ok ({ msg with data := msg.data ++ [] }, n :: ns)
        rw [List.append_nil]

/-- The messages for the pieces `cs` of a list: INVLD for all but the last. -/
def bodies (last lock : Nat) (scope : BitVec 32) : List (List WtntEntry) → List Body
  | [] => []
  | [c] => [(last, scope, dataBytes lock c)]
  | c :: c' :: cs => (INVLD, scope, dataBytes lock c) :: bodies last lock scope (c' :: cs)

/-- Sending leaves scope and data of the slot alone. -/
def Faithful (send : JiaMsg → Outbox JiaMsg) : Prop :=
  ∀ msg, ∀ x ∈ send msg, x.2.scope = msg.scope ∧ x.2.data = msg.data

theorem Faithful.after {send : JiaMsg → Outbox JiaMsg} (h : Faithful send) (msg : JiaMsg) :
    (after (send msg) msg).scope = msg.scope ∧ (after (send msg) msg).data = msg.data := by
  unfold Grants.after
  cases hlast : (send msg).getLast? with
  | none => exact ⟨rfl, rfl⟩
  | some x => exact h msg x (List.mem_of_getLast? hlast)

/-- One turn of the loop: the slot goes on with the scope it had, cut back to the lock. -/
theorem grantLoop_turn {k : Packing} (hk : Wide k) {send : JiaMsg → Outbox JiaMsg}
    (hsend : Faithful send) (last : Nat) {lock : Nat} (fuel : Nat) {msg : JiaMsg}
    {ns left : List WtntNode} {es : List WtntEntry} (hdata : msg.data = toLE Intbytes lock)
    (happ : k.append Intbytes ns = .ok (es, left)) :
    ∃ slot : JiaMsg, slot.scope = msg.scope ∧ slot.data = toLE Intbytes lock ∧
      grantLoop k send last (fuel + 1) msg ns =
        if left.isEmpty then .ok (send { msg with op := last, data := dataBytes lock es })
        else do
          let rest ← grantLoop k send last fuel slot left
          return send { msg with op := INVLD, data := dataBytes lock es } ++ rest := by
  have hlen : msg.data.length = Intbytes := by rw [hdata, length_toLE]
  have happend := appendwtnts_eq hk msg (by rw [hlen]; decide) ns
  rw [hlen, happ] at happend
  have hfull : { msg with data := msg.data ++ es.flatMap entryBytes } =
      { msg with data := dataBytes lock es } := by rw [hdata, dataBytes]
  obtain ⟨hscope, hcut⟩ := hsend.after { msg with op := INVLD, data := dataBytes lock es }
  have htake : (dataBytes lock es).take Intbytes = toLE Intbytes lock := by
    rw [dataBytes, List.take_left' (length_toLE _ _)]
  let full : JiaMsg := { msg with op := INVLD, data := dataBytes lock es }
  refine ⟨{ after (send full) full with data := (after (send full) full).data.take Intbytes },
    hscope, (congrArg (List.take Intbytes) hcut).trans htake, ?_⟩
  rw [grantLoop, happend]
  simp only [bind, Except.bind, pure, Except.pure, hfull]
  rfl

/-- The loop sends one message for each piece, and stops where the pieces stop. -/
theorem grantLoop_eq {k : Packing} (hk : Wide k) {send : JiaMsg → Outbox JiaMsg}
    (hsend : Faithful send) (last : Nat) {lock : Nat} (fuel : Nat) (msg : JiaMsg)
    (ns : List WtntNode) (hdata : msg.data = toLE Intbytes lock) :
    (∀ cs, k.chunks fuel ns = .ok cs → ∃ ms : List JiaMsg, grantLoop k send last fuel msg ns =
      .ok (ms.flatMap send) ∧ ms.map JiaMsg.body = bodies last lock msg.scope cs) ∧
    (∀ e, k.chunks fuel ns = .error e → grantLoop k send last fuel msg ns = .error e) := by
  induction fuel generalizing msg ns with
  | zero =>
      constructor
      · intro cs h
        cases h
      · intro e h
        obtain rfl := Except.error.inj h
        rfl
  | succ fuel ih =>
      rw [Packing.chunks]
      cases happ : k.append Intbytes ns with
      | error e =>
          constructor
          · intro cs h
            cases h
          · intro e' h
            have hlen : msg.data.length = Intbytes := by rw [hdata, length_toLE]
            have happend := appendwtnts_eq hk msg (by rw [hlen]; decide) ns
            rw [hlen, happ] at happend
            obtain rfl := Except.error.inj h
            rw [grantLoop, happend]
            rfl
      | ok r =>
          obtain ⟨es, left⟩ := r
          obtain ⟨slot, hscope, hslot, hturn⟩ := grantLoop_turn hk hsend last fuel hdata happ
          obtain ⟨hok, herr⟩ := ih slot left hslot
          rw [hturn]
          simp only [bind, Except.bind, pure, Except.pure]
          by_cases hnil : left.isEmpty = true
          · rw [if_pos hnil, if_pos hnil]
            constructor
            · intro cs hcs
              obtain rfl := Except.ok.inj hcs
              refine ⟨[{ msg with op := last, data := dataBytes lock es }], ?_, rfl⟩
              rw [List.flatMap_singleton]
            · intro e h
              cases h
          · rw [if_neg hnil, if_neg hnil]
            cases hrest : k.chunks fuel left with
            | error e =>
                rw [herr e hrest]
                constructor
                · intro cs h
                  cases h
                · intro e' h
                  obtain rfl := Except.error.inj h
                  rfl
            | ok cs' =>
                obtain ⟨ms, hms, hbodies⟩ := hok cs' hrest
                rw [hms]
                constructor
                · intro cs hcs
                  obtain rfl := Except.ok.inj hcs
                  refine ⟨{ msg with op := INVLD, data := dataBytes lock es } :: ms, ?_, ?_⟩
                  · rw [List.flatMap_cons]
                  · obtain ⟨c, cs₁, rfl⟩ :=
                      List.exists_cons_of_ne_nil (Packing.chunks_ne_nil hrest)
                    rw [List.map_cons, hbodies, hscope]
                    rfl
                · intro e h
                  cases h

/-! ## What a host makes of the messages -/

/-- A host decodes the messages to the lock and the notices `ns`, in order: all are
INVLD but the last, with the scope of the lock, and none is too large. -/
structure Delivers (last lock : Nat) (scope : BitVec 32) (ns : List GrantNotice)
    (msgs : List Body) : Prop where
  ops : msgs.map Prod.fst = List.replicate (msgs.length - 1) INVLD ++ [last]
  scope : ∀ m ∈ msgs, m.2.1 = scope
  size : ∀ m ∈ msgs, m.2.2.length ≤ Maxmsgsize
  lock : ∀ m ∈ msgs, ∀ rest, (invalidate (overlay m.2.2 rest) m.2.2.length).1 = lock
  notices : ∀ rest : Body → Buffer,
    msgs.flatMap (fun m => (invalidate (overlay m.2.2 (rest m)) m.2.2.length).2) = ns

theorem bodies_delivers (last : Nat) {lock : Nat} (hlock : lock < 2 ^ 32) (scope : BitVec 32)
    {cs : List (List WtntEntry)} (hne : cs ≠ []) (hfrom : ∀ c ∈ cs, ∀ e ∈ c, e.fromPid ≤ Maxhosts)
    (hsize : ∀ c ∈ cs, Intbytes + 16 * c.length ≤ Maxmsgsize) :
    Delivers last lock scope (cs.flatten.map WtntEntry.toGrant) (bodies last lock scope cs) := by
  have hdecode : ∀ c ∈ cs, ∀ rest, invalidate (overlay (dataBytes lock c) rest)
      (dataBytes lock c).length = (lock, c.map WtntEntry.toGrant) :=
    fun c hc rest => invalidate_dataBytes hlock (hfrom c hc) rest
  have hlen : ∀ c ∈ cs, (dataBytes lock c).length ≤ Maxmsgsize := by
    intro c hc
    rw [length_dataBytes]
    exact hsize c hc
  clear hfrom hsize
  induction cs with
  | nil => exact absurd rfl hne
  | cons c cs ih =>
      have hhead := hdecode c List.mem_cons_self
      cases cs with
      | nil =>
          refine ⟨rfl, ?_, ?_, ?_, ?_⟩
          · intro m hm
            rw [bodies, List.mem_singleton] at hm
            rw [hm]
          · intro m hm
            rw [bodies, List.mem_singleton] at hm
            rw [hm]
            exact hlen c List.mem_cons_self
          · intro m hm rest
            rw [bodies, List.mem_singleton] at hm
            rw [hm, hhead]
          · intro rest
            rw [bodies, List.flatMap_singleton, hhead]
            simp
      | cons c' cs =>
          have htail := ih (by simp) (fun d hd => hdecode d (List.mem_cons_of_mem _ hd))
            fun d hd => hlen d (List.mem_cons_of_mem _ hd)
          have hbodies : bodies last lock scope (c :: c' :: cs) =
              (INVLD, scope, dataBytes lock c) :: bodies last lock scope (c' :: cs) := rfl
          have hpos : 0 < (bodies last lock scope (c' :: cs)).length := by
            cases cs <;> simp [bodies]
          rw [hbodies]
          refine ⟨?_, ?_, ?_, ?_, ?_⟩
          · rw [List.map_cons, htail.ops, List.length_cons, Nat.add_sub_cancel,
              ← List.cons_append, ← List.replicate_succ, Nat.sub_add_cancel hpos]
          · intro m hm
            rcases List.mem_cons.mp hm with rfl | hm
            · rfl
            · exact htail.scope m hm
          · intro m hm
            rcases List.mem_cons.mp hm with rfl | hm
            · exact hlen c List.mem_cons_self
            · exact htail.size m hm
          · intro m hm rest
            rcases List.mem_cons.mp hm with rfl | hm
            · rw [hhead]
            · exact htail.lock m hm rest
          · intro rest
            rw [List.flatMap_cons, htail.notices rest, hhead]
            simp

/-! ## Pieces of a list -/

section Pieces

variable {k : Packing}

theorem append_size {size : Nat} {ns left : List WtntNode} {es : List WtntEntry}
    (hsize : size ≤ Maxmsgsize) (h : k.append size ns = .ok (es, left)) :
    size + k.unit * es.length ≤ Maxmsgsize ∧ left.length ≤ ns.length := by
  induction ns generalizing size es with
  | nil =>
      simp only [Packing.append, Except.ok.injEq, Prod.mk.injEq] at h
      obtain ⟨rfl, rfl⟩ := h
      exact ⟨hsize, Nat.le_refl _⟩
  | cons n ns ih =>
      simp only [Packing.append] at h
      split at h
      · simp only [bind_eq_ok, jiaAssert_eq_ok, Prod.exists, pure, Except.pure, Except.ok.injEq,
          Prod.mk.injEq] at h
        obtain ⟨-, hroom, rest, left', hrest, rfl, rfl⟩ := h
        obtain ⟨hle, hlen⟩ := ih hroom hrest
        refine ⟨?_, hlen.trans (Nat.le_succ _)⟩
        rw [List.length_append, Nat.mul_add, ← Nat.add_assoc]
        exact hle
      · simp only [Except.ok.injEq, Prod.mk.injEq] at h
        obtain ⟨rfl, rfl⟩ := h
        exact ⟨hsize, Nat.le_refl _⟩

theorem chunks_size {fuel : Nat} {ns : List WtntNode} {cs : List (List WtntEntry)}
    (h : k.chunks fuel ns = .ok cs) : ∀ c ∈ cs, Intbytes + k.unit * c.length ≤ Maxmsgsize := by
  induction fuel generalizing ns cs with
  | zero => cases h
  | succ fuel ih =>
      simp only [Packing.chunks, bind_eq_ok, Prod.exists] at h
      obtain ⟨es, left, happ, h⟩ := h
      have hle := (append_size (show Intbytes ≤ Maxmsgsize by decide) happ).1
      split at h
      · obtain rfl := Except.ok.inj h
        intro c hc
        rw [List.mem_singleton.mp hc]
        exact hle
      · rw [bind_eq_ok] at h
        obtain ⟨rest, hrest, h⟩ := h
        obtain rfl := Except.ok.inj h
        intro c hc
        rcases List.mem_cons.mp hc with rfl | hc
        · exact hle
        · exact ih hrest c hc

/-- The pieces of a list `savewtnt` built, as messages, bring the chosen notices. -/
theorem Built.delivers {l : WtntList} (hl : Built l) (hk : Wide k) (last : Nat) {lock : Nat}
    (hlock : lock ≤ hidelock) (scope : BitVec 32) {cs : List (List WtntEntry)}
    (hcs : k.stream l = .ok cs) :
    Delivers last lock scope ((l.entries.filter k.sel).map WtntEntry.toGrant)
      (bodies last lock scope cs) := by
  have hflat : cs.flatten = l.entries.filter k.sel := Packing.chunks_flatten hcs
  rw [← hflat]
  refine bodies_delivers last (hlock.trans_lt (by decide)) scope (Packing.chunks_ne_nil hcs) ?_ ?_
  · intro c hc e he
    have hmem : e ∈ l.entries.filter k.sel := hflat ▸ List.mem_flatten.mpr ⟨c, hc, he⟩
    exact hl.fromPid_le e (List.mem_filter.mp hmem).1
  · intro c hc
    have hle := chunks_size hcs c hc
    rwa [hk] at hle

end Pieces

/-! ## Notices of pages in a row -/

section Rows

/-- Notices of `n` pages in a row, all from host 0. -/
def manyNotices (n : Nat) : WtntList :=
  (List.range n).foldl (fun l i => l.save (BitVec.ofNat 64 (Pagesize * (i + 1))) 0 0 0) .empty

/-- Entries of the nodes after one more entry. -/
def insertLens : List Nat → List Nat
  | [] => [1]
  | c :: cs => if c < Maxwtnts then (c + 1) :: cs else c :: insertLens cs

def lens (ns : List WtntNode) : List Nat := ns.map fun n => n.entries.length

theorem lens_insertNodes (e : WtntEntry) (ns : List WtntNode) :
    lens (insertNodes e ns) = insertLens (lens ns) := by
  induction ns with
  | nil => rfl
  | cons n ns ih =>
      by_cases hroom : n.entries.length < Maxwtnts
      · simp [insertNodes, insertLens, lens, hroom]
      · simp only [lens] at ih
        simp [insertNodes, insertLens, lens, hroom, ih]

theorem built_manyNotices (n : Nat) : Built (manyNotices n) := by
  induction n with
  | zero => exact .empty
  | succ n ih =>
      rw [manyNotices, List.range_succ, List.foldl_append]
      exact .save ih _ _ (Nat.zero_le _) _

theorem pageNum_row {i : Nat} (h : i < 2 ^ 20) :
    pageNum (BitVec.ofNat 64 (Pagesize * (i + 1))) = i + 1 := by
  have hlt : Pagesize * (i + 1) < 2 ^ 64 := by
    simp only [Pagesize]
    omega
  rw [pageNum, BitVec.toNat_ofNat, Nat.mod_eq_of_lt hlt, Nat.mul_div_cancel_left _ (by decide)]

theorem manyNotices_succ (n : Nat) : manyNotices (n + 1) =
    (manyNotices n).save (BitVec.ofNat 64 (Pagesize * (n + 1))) 0 0 0 := by
  rw [manyNotices, List.range_succ, List.foldl_append]
  rfl

theorem nums_manyNotices {n : Nat} (h : n < 2 ^ 20) : ∀ p ∈ (manyNotices n).nums, p ≤ n := by
  induction n with
  | zero =>
      intro p hp
      cases hp
  | succ n ih =>
      intro p hp
      rw [manyNotices_succ, WtntList.mem_nums_save, pageNum_row (by omega)] at hp
      rcases hp with rfl | hp
      · exact Nat.le_refl _
      · exact (ih (by omega) p hp).trans (Nat.le_succ n)

theorem fresh_row {n i : Nat} (hn : n < 2 ^ 20) (hi : i < 2 ^ 20) (h : n ≤ i) :
    pageNum (BitVec.ofNat 64 (Pagesize * (i + 1))) ∉ (manyNotices n).nums := by
  rw [pageNum_row hi]
  intro hmem
  exact absurd (nums_manyNotices hn _ hmem) (by omega)

theorem lens_save_new {l : WtntList} {addr : Addr} (hnew : pageNum addr ∉ l.nums) (mig : BitVec 32)
    (fromPid : Nat) (scope : BitVec 32) :
    lens (l.save addr mig fromPid scope).nodes = insertLens (lens l.nodes) := by
  have hnone : againNodes addr mig scope l.nodes = none := by
    rw [againNodes_eq_none]
    intro e he hnum
    exact hnew (WtntList.mem_nums.mpr ⟨e, he, hnum⟩)
  rw [← lens_insertNodes ⟨addr, fromPid, scope, mig⟩]
  change lens (saveNodes _ _ _ _ _) = _
  rw [saveNodes, hnone]

theorem lens_manyNotices {n : Nat} (h : n < 2 ^ 20) :
    lens (manyNotices n).nodes = insertLens^[n] [0] := by
  induction n with
  | zero => rfl
  | succ n ih =>
      have hnew := fresh_row (n := n) (i := n) (by omega) (by omega) (Nat.le_refl n)
      rw [manyNotices_succ, lens_save_new hnew, ih (by omega), Function.iterate_succ_apply']

theorem scope_manyNotices (n : Nat) : ∀ e ∈ (manyNotices n).entries, e.scope = 0 := by
  induction n with
  | zero =>
      intro e he
      cases he
  | succ n ih =>
      intro e he
      rw [manyNotices_succ] at he
      rcases WtntList.of_mem_save he with ⟨hold, -⟩ | ⟨-, rfl⟩ | ⟨e₀, -, -, rfl⟩
      · exact ih e hold
      · rfl
      · rfl

/-- A node takes entries until it is full. -/
theorem insertLens_fill (m c j : Nat) (h : c + j ≤ Maxwtnts) :
    insertLens^[j] (List.replicate m Maxwtnts ++ [c]) = List.replicate m Maxwtnts ++ [c + j] := by
  have hskip : ∀ m d, d < Maxwtnts → insertLens (List.replicate m Maxwtnts ++ [d]) =
      List.replicate m Maxwtnts ++ [d + 1] := by
    intro m d hd
    induction m with
    | zero => simp [insertLens, hd]
    | succ m ih => simp [List.replicate_succ, insertLens, ih]
  induction j with
  | zero => rfl
  | succ j ih => rw [Function.iterate_succ_apply', ih (by omega), hskip m _ (by omega), Nat.add_assoc]

theorem insertLens_open (m : Nat) : insertLens (List.replicate m Maxwtnts ++ [Maxwtnts]) =
    List.replicate (m + 1) Maxwtnts ++ [1] := by
  induction m with
  | zero => rfl
  | succ m ih => simpa [List.replicate_succ, insertLens] using ih

/-- Entries fill one node after the other. -/
theorem insertLens_rows (m c : Nat) (hc : c + 1 ≤ Maxwtnts) :
    insertLens^[Maxwtnts * m + (c + 1)] [0] = List.replicate m Maxwtnts ++ [c + 1] := by
  induction m generalizing c with
  | zero => simpa using insertLens_fill 0 0 (c + 1) (by omega)
  | succ m ih =>
      have hsum : Maxwtnts * (m + 1) + (c + 1) = c + ((Maxwtnts * m + (510 + 1)) + 1) := by
        simp only [Maxwtnts]
        omega
      have hfull := ih 510 (Nat.le_refl _)
      rw [hsum, Function.iterate_add_apply, Function.iterate_succ_apply', hfull]
      change insertLens^[c] (insertLens (List.replicate m Maxwtnts ++ [Maxwtnts])) = _
      rw [insertLens_open, insertLens_fill (m + 1) 1 c (by omega), Nat.add_comm 1 c]

theorem length_chainEntries (ns : List WtntNode) : (chainEntries ns).length = (lens ns).sum := by
  induction ns with
  | nil => rfl
  | cons n ns ih =>
      rw [chainEntries_cons, List.length_append, ih]
      rfl

/-- 600 notices of host 0 and two of host 2: an old one of page 701 and one of page 702. -/
def mixedNotices : WtntList :=
  ((manyNotices 600).save (BitVec.ofNat 64 (Pagesize * 701)) 0 2 (BitVec.allOnes 32)).save
    (BitVec.ofNat 64 (Pagesize * 702)) 0 2 0

theorem built_mixedNotices : Built mixedNotices :=
  .save (.save (built_manyNotices 600) _ _ (by decide) _) _ _ (by decide) _

theorem fresh_mixedNotices : pageNum (BitVec.ofNat 64 (Pagesize * 702)) ∉
    ((manyNotices 600).save (BitVec.ofNat 64 (Pagesize * 701)) 0 2 (BitVec.allOnes 32)).nums := by
  rw [WtntList.mem_nums_save]
  rintro (h | h)
  · exact absurd h (by decide)
  · exact fresh_row (by decide) (by decide) (by decide) h

theorem lens_mixedNotices : lens mixedNotices.nodes = [511, 91] := by
  have hrow : insertLens^[600] [0] = [511, 89] := insertLens_rows 1 88 (by decide)
  rw [mixedNotices, lens_save_new fresh_mixedNotices,
    lens_save_new (fresh_row (by decide) (by decide) (by decide)), lens_manyNotices (by decide), hrow]
  decide

theorem mem_mixedNotices :
    ⟨BitVec.ofNat 64 (Pagesize * 701), 2, BitVec.allOnes 32, 0⟩ ∈ mixedNotices.entries ∧
      ⟨BitVec.ofNat 64 (Pagesize * 702), 2, 0, 0⟩ ∈ mixedNotices.entries := by
  constructor
  · rw [mixedNotices, WtntList.mem_save_of_ne (by decide)]
    have hnew := fresh_row (n := 600) (i := 700) (by decide) (by decide) (by decide)
    exact (WtntList.mem_save_new hnew rfl).mpr rfl
  · exact (WtntList.mem_save_new fresh_mixedNotices rfl).mpr rfl

end Rows

/-! ## Barrier grants -/

section Barr

theorem faithful_broadcast (cfg : Config) (pid : Nat) : Faithful (broadcast cfg pid) := by
  intro msg x hx
  unfold broadcast at hx
  split at hx
  · simp only [bsendmsg, TreeCast.bcastserver] at hx
    obtain ⟨y, hy, rfl⟩ := List.mem_map.mp hx
    rcases List.mem_append.mp hy with hy | hy
    · split at hy
      · rw [List.mem_singleton] at hy
        rw [hy]
        exact ⟨rfl, rfl⟩
      · cases hy
    · rw [List.mem_singleton] at hy
      rw [hy]
      exact ⟨rfl, rfl⟩
  · obtain ⟨h, -, rfl⟩ := List.mem_map.mp hx
    exact ⟨rfl, rfl⟩

theorem appendmsg_lock (msg : JiaMsg) (lock : Nat) (hdata : msg.data = []) :
    appendmsg msg (toLE Intbytes lock) = .ok { msg with data := toLE Intbytes lock } := by
  rw [appendmsg_eq, hdata, length_toLE, if_pos (by decide)]
  rfl

/-- `grantbarr` ends and trips no assert; each of its messages fits, and every host
decodes them to all notices of the barrier in order, whether they are sent one by one or
down the tree. -/
theorem grantbarr_delivers (cfg : Config) {l : WtntList} (hl : Built l) {pid lock : Nat}
    (hpid : pid < cfg.hostc) (hlock : lock ≤ hidelock) (scope : BitVec 32) (slot : JiaMsg) :
    ∃ (ms : List JiaMsg) (out : Outbox JiaMsg),
      grantbarr cfg pid lock scope slot l = .ok out ∧ out = ms.flatMap (broadcast cfg pid) ∧
      (∀ x ∈ out, x.2.data.length ≤ Maxmsgsize) ∧
      (cfg.bCast = false → ∀ h < cfg.hostc, Delivers BARRGRANT lock scope
        (l.entries.map WtntEntry.toGrant) ((outboxTo out h).map JiaMsg.body)) ∧
      (cfg.bCast = true → ∀ s, (castSystem cfg).Reach s → s.sent pid = ms → ∀ h < cfg.hostc,
        ((s.handled h).filter fun m => TreeCast.rootOf m = pid).map JiaMsg.body <+:
          ms.map JiaMsg.body ∧
        ((∀ a b, s.net a b = []) → Delivers BARRGRANT lock scope (l.entries.map WtntEntry.toGrant)
          (((s.handled h).filter fun m => TreeCast.rootOf m = pid).map JiaMsg.body))) := by
  obtain ⟨cs, hcs⟩ := appendBarrWtnts_sound.stream_ok l
  have hwide : Wide appendBarrWtnts := rfl
  let grant : JiaMsg :=
    { slot with frompid := pid, topid := pid, scope := scope, data := toLE Intbytes lock }
  have hloop := grantLoop_eq hwide (faithful_broadcast cfg pid) BARRGRANT
    (l.nodes.length + 1) grant l.nodes rfl
  obtain ⟨ms, hms, hbodies⟩ := hloop.1 cs hcs
  have hall : l.entries.filter appendBarrWtnts.sel = l.entries :=
    List.filter_eq_self.mpr fun _ _ => rfl
  have hdel := hl.delivers hwide BARRGRANT hlock scope hcs
  rw [hall] at hdel
  change ms.map JiaMsg.body = bodies BARRGRANT lock scope cs at hbodies
  rw [← hbodies] at hdel
  refine ⟨ms, ms.flatMap (broadcast cfg pid), ?_, rfl, ?_, ?_, ?_⟩
  · rw [grantbarr, appendmsg_lock _ _ rfl]
    exact hms
  · intro x hx
    obtain ⟨msg, hmsg, hx⟩ := List.mem_flatMap.mp hx
    rw [(faithful_broadcast cfg pid msg x hx).2]
    exact hdel.size msg.body (List.mem_map_of_mem hmsg)
  · intro hoff h hh
    have hone : broadcast cfg pid = oneByOne cfg := by
      funext msg
      rw [broadcast, hoff, if_neg Bool.false_ne_true]
    rw [hone, TreeCast.oneByOne_to ms hh]
    exact hdel
  · intro hon s hs hsent h hh
    obtain ⟨hpre, -, hdone, -⟩ := TreeCast.tree_broadcast hs
    have hp := hpre pid hpid h hh
    rw [hsent, TreeCast.oneByOne_to ms hh] at hp
    refine ⟨hp, ?_⟩
    intro hempty
    have hd := hdone hempty pid hpid h hh
    rw [hsent, TreeCast.oneByOne_to ms hh] at hd
    rw [hd]
    exact hdel

/-- 3000 notices in six nodes, which one message does not hold: host 0 grants a barrier to
two hosts, one by one and down the tree. -/
theorem grantbarr_delivers_sixNodes :
    lens (manyNotices 3000).nodes = List.replicate 5 511 ++ [445] ∧
      (∃ out, grantbarr .noPages 0 hidelock 1 ⟨0, 0, 0, 0, 0, []⟩ (manyNotices 3000) = .ok out ∧
        ∀ h < 2, Delivers BARRGRANT hidelock 1
          ((manyNotices 3000).entries.map WtntEntry.toGrant) ((outboxTo out h).map JiaMsg.body)) ∧
      ∃ out, grantbarr (TreeCast.tree .noPages) 0 hidelock 1 ⟨0, 0, 0, 0, 0, []⟩
          (manyNotices 3000) = .ok out ∧ ∀ x ∈ out, x.2.data.length ≤ Maxmsgsize := by
  have hone := grantbarr_delivers .noPages (built_manyNotices 3000)
    (show 0 < Config.noPages.hostc by decide) (Nat.le_refl hidelock) 1 ⟨0, 0, 0, 0, 0, []⟩
  have htree := grantbarr_delivers (TreeCast.tree .noPages) (built_manyNotices 3000)
    (show 0 < (TreeCast.tree .noPages).hostc by decide) (Nat.le_refl hidelock) 1
    ⟨0, 0, 0, 0, 0, []⟩
  have hrow : insertLens^[3000] [0] = List.replicate 5 511 ++ [445] :=
    insertLens_rows 5 444 (by decide)
  refine ⟨(lens_manyNotices (by decide)).trans hrow, ?_, ?_⟩
  · obtain ⟨-, out, hgrant, -, -, hall, -⟩ := hone
    exact ⟨out, hgrant, hall rfl⟩
  · obtain ⟨-, out, hgrant, -, hsize, -, -⟩ := htree
    exact ⟨out, hgrant, hsize⟩

end Barr

/-! ## Lock grants -/

section Lock

variable {k : Packing}

/-- Whether the nodes of a list fit, with `size` bytes in the message: a node that passes
the size test must find room for its chosen entries, one that does not opens the next
message. -/
def Room (k : Packing) : Nat → List WtntNode → Prop
  | _, [] => True
  | size, n :: ns =>
      let picked := (n.entries.filter k.sel).length
      if k.fits size n then
        size + k.unit * picked ≤ Maxmsgsize ∧ Room k (size + k.unit * picked) ns
      else Room k (Intbytes + k.unit * picked) ns

/-- Notices that fit into one message always fit. -/
theorem room_of_length {ns : List WtntNode} {size : Nat} (hsize : Intbytes ≤ size)
    (hfits : size + k.unit * (chainEntries ns).length ≤ Maxmsgsize) : Room k size ns := by
  induction ns generalizing size with
  | nil => trivial
  | cons n ns ih =>
      have hpicked : k.unit * (n.entries.filter k.sel).length ≤ k.unit * n.entries.length :=
        Nat.mul_le_mul_left _ (List.length_filter_le _ _)
      rw [chainEntries_cons, List.length_append, Nat.mul_add] at hfits
      dsimp only [Room]
      split
      · exact ⟨by omega, ih (by omega) (by omega)⟩
      · exact ih (by omega) (by omega)

/-- The first node of a message passes the test and has room. -/
def Opens (k : Packing) : Prop :=
  ∀ n : WtntNode, k.fits Intbytes n = true ∧
    Intbytes + k.unit * (n.entries.filter k.sel).length ≤ Maxmsgsize

theorem Opens.room (hk : Opens k) {size : Nat} {n : WtntNode} {ns : List WtntNode}
    (hfits : ¬ k.fits size n = true) : Room k size (n :: ns) ↔ Room k Intbytes (n :: ns) := by
  obtain ⟨hfirst, hroom⟩ := hk n
  rw [Room, Room, if_neg hfits, if_pos hfirst]
  exact ⟨fun h => ⟨hroom, h⟩, fun h => h.2⟩

/-- One append succeeds when its nodes fit, and leaves the others to be fitted. -/
theorem Opens.append_iff (hk : Opens k) (size : Nat) (ns : List WtntNode) :
    Room k size ns ↔ ∃ es left, k.append size ns = .ok (es, left) ∧ Room k Intbytes left := by
  induction ns generalizing size with
  | nil => exact iff_of_true trivial ⟨[], [], rfl, trivial⟩
  | cons n ns ih =>
      by_cases hfits : k.fits size n = true
      · rw [Room, Packing.append]
        simp only
        rw [if_pos hfits, if_pos hfits, ih]
        constructor
        · rintro ⟨hroom, es, left, happ, hleft⟩
          refine ⟨n.entries.filter k.sel ++ es, left, ?_, hleft⟩
          simp only [bind_eq_ok, jiaAssert_eq_ok, Prod.exists]
          exact ⟨(), hroom, es, left, happ, rfl⟩
        · rintro ⟨es, left, happ, hleft⟩
          simp only [bind_eq_ok, jiaAssert_eq_ok, Prod.exists, pure, Except.pure, Except.ok.injEq,
            Prod.mk.injEq] at happ
          obtain ⟨-, hroom, es', left', happ, rfl, rfl⟩ := happ
          exact ⟨hroom, es', left', happ, hleft⟩
      · rw [hk.room hfits, Packing.append, if_neg hfits]
        constructor
        · exact fun h => ⟨[], n :: ns, rfl, h⟩
        · rintro ⟨es, left, happ, hleft⟩
          simp only [Except.ok.injEq, Prod.mk.injEq] at happ
          obtain ⟨rfl, rfl⟩ := happ
          exact hleft

theorem Opens.append_left (hk : Opens k) {n : WtntNode} {ns left : List WtntNode}
    {es : List WtntEntry} (h : k.append Intbytes (n :: ns) = .ok (es, left)) :
    left.length ≤ ns.length := by
  rw [Packing.append, if_pos (hk n).1] at h
  simp only [bind_eq_ok, jiaAssert_eq_ok, Prod.exists, pure, Except.pure, Except.ok.injEq,
    Prod.mk.injEq] at h
  obtain ⟨-, hroom, es', left', happ, -, rfl⟩ := h
  exact (append_size hroom happ).2

/-- A list is cut into pieces exactly when all its nodes find room. -/
theorem Opens.chunks_iff (hk : Opens k) {fuel : Nat} {ns : List WtntNode}
    (hfuel : ns.length < fuel) : (∃ cs, k.chunks fuel ns = .ok cs) ↔ Room k Intbytes ns := by
  induction fuel generalizing ns with
  | zero => omega
  | succ fuel ih =>
      rw [hk.append_iff]
      have hless : ∀ es left, k.append Intbytes ns = .ok (es, left) → left ≠ [] →
          left.length < fuel := by
        intro es left happ hne
        cases ns with
        | nil =>
            simp only [Packing.append, Except.ok.injEq, Prod.mk.injEq] at happ
            exact absurd happ.2.symm hne
        | cons n ns =>
            have hle := hk.append_left happ
            rw [List.length_cons] at hfuel
            omega
      constructor
      · rintro ⟨cs, hcs⟩
        simp only [Packing.chunks, bind_eq_ok, Prod.exists] at hcs
        obtain ⟨es, left, happ, hcs⟩ := hcs
        refine ⟨es, left, happ, ?_⟩
        split at hcs
        · rename_i hnil
          rw [List.isEmpty_iff.mp hnil]
          trivial
        · rename_i hne
          rw [bind_eq_ok] at hcs
          obtain ⟨rest, hrest, -⟩ := hcs
          exact (ih (hless es left happ (by simpa using hne))).mp ⟨rest, hrest⟩
      · rintro ⟨es, left, happ, hroom⟩
        by_cases hnil : left.isEmpty = true
        · refine ⟨[es], ?_⟩
          simp only [Packing.chunks, bind_eq_ok, Prod.exists]
          exact ⟨es, left, happ, by rw [if_pos hnil]; rfl⟩
        · obtain ⟨rest, hrest⟩ := (ih (hless es left happ (by simpa using hnil))).mpr hroom
          refine ⟨es :: rest, ?_⟩
          simp only [Packing.chunks, bind_eq_ok, Prod.exists]
          refine ⟨es, left, happ, ?_⟩
          rw [if_neg hnil, bind_eq_ok]
          exact ⟨rest, hrest, rfl⟩

variable {homehost : Addr → Nat} {toproc : Nat} {acqscope : BitVec 32}

theorem opens_appendLockWtnts : Opens (appendLockWtnts homehost toproc acqscope) := by
  intro n
  have hle := n.wtntc_le
  have hpicked := List.length_filter_le (appendLockWtnts homehost toproc acqscope).sel n.entries
  refine ⟨decide_eq_true ?_, ?_⟩
  · simp only [Intbytes, Addrbytes, Maxmsgsize, Maxwtnts, Maxsize, Msgheadsize] at hle ⊢
    omega
  · show Intbytes + (Addrbytes + Intbytes + Intbytes) * _ ≤ Maxmsgsize
    simp only [Intbytes, Addrbytes, Maxmsgsize, Maxwtnts, Maxsize, Msgheadsize] at hle ⊢
    omega

theorem faithful_toOutqueue : Faithful toOutqueue := by
  intro msg x hx
  rw [toOutqueue, List.mem_singleton] at hx
  rw [hx]
  exact ⟨rfl, rfl⟩

theorem map_toOutqueue (ms : List JiaMsg) : (ms.flatMap toOutqueue).map Prod.snd = ms := by
  induction ms with
  | nil => rfl
  | cons m ms ih =>
      rw [List.flatMap_cons, List.map_append, ih]
      rfl

/-- `grantlock` never changes the receiver. -/
theorem grantLoop_topid {last fuel : Nat} {msg : JiaMsg} {ns : List WtntNode}
    {out : Outbox JiaMsg} (hk : Wide k) (hsize : msg.data.length ≤ Maxmsgsize)
    (h : grantLoop k toOutqueue last fuel msg ns = .ok out) : ∀ x ∈ out, x.1 = msg.topid := by
  induction fuel generalizing msg ns out with
  | zero => cases h
  | succ fuel ih =>
      rw [grantLoop, appendwtnts_eq hk msg hsize] at h
      simp only [bind_eq_ok, Prod.exists, pure, Except.pure, Except.ok.injEq, Prod.mk.injEq] at h
      obtain ⟨full, left, ⟨es, left', happ, rfl, rfl⟩, h⟩ := h
      split at h
      · obtain rfl := Except.ok.inj h
        intro x hx
        rw [toOutqueue, List.mem_singleton] at hx
        rw [hx]
      · rw [bind_eq_ok] at h
        obtain ⟨rest, hrest, h⟩ := h
        obtain rfl := Except.ok.inj h
        intro x hx
        rcases List.mem_append.mp hx with hx | hx
        · rw [toOutqueue, List.mem_singleton] at hx
          rw [hx]
        · refine ih ?_ hrest x hx
          exact (List.length_take_le _ _).trans (by decide)

/-- A grant that is complete: the messages all go to the acquirer and bring it the notices
newer than `acqscope` of pages that it is not the home of, in order. -/
def GrantComplete (homehost : Addr → Nat) (pid lock toproc : Nat) (acqscope scope : BitVec 32)
    (slot : JiaMsg) (l : WtntList) : Prop :=
  ∃ out, grantlock homehost pid lock toproc acqscope scope slot l = .ok out ∧
    (∀ x ∈ out, x.1 = toproc) ∧
    Delivers ACQGRANT lock scope
      ((l.entries.filter fun e => acqscope.slt e.scope && homehost e.addr != toproc).map
        WtntEntry.toGrant) ((out.map Prod.snd).map JiaMsg.body)

/-- A lock grant is complete exactly when every node that passes the size test of
`appendlockwtnts` has room: the test counts 8 bytes for an entry of 16. -/
theorem grantlock_complete_iff {l : WtntList} (hl : Built l) (homehost : Addr → Nat)
    (pid toproc : Nat) {lock : Nat} (hlock : lock < Maxlocks) (acqscope scope : BitVec 32)
    (slot : JiaMsg) :
    GrantComplete homehost pid lock toproc acqscope scope slot l ↔
      Room (appendLockWtnts homehost toproc acqscope) Intbytes l.nodes := by
  have hwide : Wide (appendLockWtnts homehost toproc acqscope) := rfl
  have hfuel : l.nodes.length < l.nodes.length + 1 := Nat.lt_succ_self _
  let grant : JiaMsg :=
    { slot with frompid := pid, topid := toproc, scope := scope, data := toLE Intbytes lock }
  have hloop := grantLoop_eq hwide faithful_toOutqueue ACQGRANT (l.nodes.length + 1) grant l.nodes rfl
  have hgrant : grantlock homehost pid lock toproc acqscope scope slot l =
      grantLoop (appendLockWtnts homehost toproc acqscope) toOutqueue ACQGRANT
        (l.nodes.length + 1) grant l.nodes := by
    rw [grantlock, appendmsg_lock _ _ rfl]
    rfl
  rw [← opens_appendLockWtnts.chunks_iff hfuel]
  constructor
  · rintro ⟨out, hout, -⟩
    cases hcs : (appendLockWtnts homehost toproc acqscope).chunks (l.nodes.length + 1) l.nodes with
    | ok cs => exact ⟨cs, rfl⟩
    | error e =>
        rw [hgrant, hloop.2 e hcs] at hout
        cases hout
  · rintro ⟨cs, hcs⟩
    obtain ⟨ms, hms, hbodies⟩ := hloop.1 cs hcs
    refine ⟨ms.flatMap toOutqueue, hgrant.trans hms, ?_, ?_⟩
    · have hsize : grant.data.length ≤ Maxmsgsize := by
        rw [length_toLE]
        decide
      exact grantLoop_topid hwide hsize hms
    · have hdel := hl.delivers hwide ACQGRANT (Nat.le_of_lt hlock) scope hcs
      rw [map_toOutqueue, hbodies]
      exact hdel

/-! ## A list that does not fit -/

/-- `Room` when all entries are chosen, on the numbers of entries. -/
def roomLens : Nat → List Nat → Bool
  | _, [] => true
  | size, c :: cs =>
      if size + (2 * Intbytes + c * Addrbytes) < Maxmsgsize then
        decide (size + 16 * c ≤ Maxmsgsize) && roomLens (size + 16 * c) cs
      else roomLens (Intbytes + 16 * c) cs

theorem room_all {size : Nat} {ns : List WtntNode}
    (hall : ∀ n ∈ ns, n.entries.filter (appendLockWtnts homehost toproc acqscope).sel = n.entries)
    (h : Room (appendLockWtnts homehost toproc acqscope) size ns) : roomLens size (lens ns) = true := by
  induction ns generalizing size with
  | nil => rfl
  | cons n ns ih =>
      have hrest : ∀ n' ∈ ns, n'.entries.filter (appendLockWtnts homehost toproc acqscope).sel =
          n'.entries := fun n' hn' => hall n' (List.mem_cons_of_mem _ hn')
      have hfits : (appendLockWtnts homehost toproc acqscope).fits size n =
          decide (size + (2 * Intbytes + n.entries.length * Addrbytes) < Maxmsgsize) := rfl
      have hunit : (appendLockWtnts homehost toproc acqscope).unit = 16 := rfl
      rw [Room] at h
      simp only [hall n List.mem_cons_self, hfits, hunit, decide_eq_true_eq] at h
      change (if size + (2 * Intbytes + n.entries.length * Addrbytes) < Maxmsgsize then
        decide (size + 16 * n.entries.length ≤ Maxmsgsize) &&
          roomLens (size + 16 * n.entries.length) (lens ns)
        else roomLens (Intbytes + 16 * n.entries.length) (lens ns)) = true
      split at h
      · rename_i hfit
        rw [if_pos hfit, ih hrest h.2, decide_eq_true h.1]
        rfl
      · rename_i hfit
        rw [if_neg hfit, ih hrest h]

theorem manyNotices_overflow {n : Nat} (hn : n < 2 ^ 20)
    (hlens : roomLens Intbytes (insertLens^[n] [0]) = false) :
    ¬ GrantComplete (fun _ => 0) 0 0 1 (BitVec.allOnes 32) 0 ⟨0, 0, 0, 0, 0, []⟩
      (manyNotices n) := by
  rw [grantlock_complete_iff (built_manyNotices n) _ _ _ (by decide)]
  intro hroom
  have hall : ∀ nd ∈ (manyNotices n).nodes, nd.entries.filter
      (appendLockWtnts (fun _ => 0) 1 (BitVec.allOnes 32)).sel = nd.entries := by
    intro nd hnd
    rw [List.filter_eq_self]
    intro e he
    have hscope := scope_manyNotices n e (List.mem_flatMap.mpr ⟨nd, hnd, he⟩)
    show ((BitVec.allOnes 32).slt e.scope && (0 : Nat) != 1) = true
    rw [hscope]
    decide
  have hfits := room_all hall hroom
  rw [lens_manyNotices hn, hlens] at hfits
  cases hfits

/-- 2558 notices for one acquirer: the sixth node, with three entries, passes the size
test and does not fit. -/
theorem manyNotices_not_complete :
    ¬ GrantComplete (fun _ => 0) 0 0 1 (BitVec.allOnes 32) 0 ⟨0, 0, 0, 0, 0, []⟩
      (manyNotices 2558) := by
  apply manyNotices_overflow (by decide)
  rw [show 2558 = Maxwtnts * 5 + (2 + 1) by decide, insertLens_rows 5 2 (by decide)]
  decide

theorem room_of_lens {ns : List WtntNode} (hunit : k.unit = 16)
    (hfits : Intbytes + 16 * (lens ns).sum ≤ Maxmsgsize) : Room k Intbytes ns := by
  apply room_of_length (Nat.le_refl Intbytes)
  rw [hunit, length_chainEntries]
  exact hfits

/-- Host 0 of three grants a lock to host 1, the home of page 702: of two nodes it leaves out
the notice of that page and the old one of page 701. -/
theorem grantlock_complete_twoNodes :
    let homehost : Addr → Nat :=
      fun addr => if addr = BitVec.ofNat 64 (Pagesize * 702) then 1 else 0
    lens mixedNotices.nodes = [511, 91] ∧
      (∃ e ∈ mixedNotices.entries, e.scope = BitVec.allOnes 32) ∧
      (∃ e ∈ mixedNotices.entries, homehost e.addr = 1) ∧
      GrantComplete homehost 0 3 1 (BitVec.allOnes 32) 5 ⟨0, 0, 0, 0, 0, []⟩ mixedNotices := by
  intro homehost
  -- for any list of these nodes, so that nothing evaluates the 602 calls
  have hfits : ∀ l : WtntList, Built l → lens l.nodes = [511, 91] →
      GrantComplete homehost 0 3 1 (BitVec.allOnes 32) 5 ⟨0, 0, 0, 0, 0, []⟩ l := by
    intro l hl hlens
    rw [grantlock_complete_iff hl homehost 0 1 (by decide)]
    apply room_of_lens rfl
    rw [hlens]
    decide
  exact ⟨lens_mixedNotices, ⟨_, mem_mixedNotices.1, rfl⟩, ⟨_, mem_mixedNotices.2, by decide⟩,
    hfits mixedNotices built_mixedNotices lens_mixedNotices⟩

end Lock

end Jiajia.Grants
