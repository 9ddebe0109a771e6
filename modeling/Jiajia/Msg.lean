import Jiajia.Wtnt
import Jiajia.Diff

/-!
# Messages

`jia_msg_t` by operation, with the fields each server reads.  `frompid` is the
host that put the message on the wire; the network keeps it with the channel.
-/

namespace Jiajia

/-- A notice on its way to a manager: `| addr | mig |`. -/
structure StackNotice where
  addr : Addr
  mig : BitVec 32
deriving DecidableEq, Repr

/-- A notice on its way to a host: `| addr | from | mig |`. -/
structure GrantNotice where
  addr : Addr
  fromPid : Nat
  mig : BitVec 32
deriving DecidableEq, Repr

def WtntEntry.toStack (e : WtntEntry) : StackNotice := ⟨e.addr, e.mig⟩

def WtntEntry.toGrant (e : WtntEntry) : GrantNotice := ⟨e.addr, e.fromPid, e.mig⟩

/-- A page as it travels in GETPGRANT, apart from the requested one. -/
structure ExtraPage where
  addr : Addr
  data : Page

inductive Msg
  | diff (diffs : List PageDiff)
  | diffgrant
  | getp (addr : Addr) (temp : Bool)
  | getpgrant (addr : Addr) (temp : BitVec Wvbits) (data : Page) (extra : List ExtraPage)
  | acq (lock : Nat) (scope : BitVec 32)
  | acqgrant (lock : Nat) (scope : BitVec 32) (notices : List GrantNotice)
  | invld (lock : Nat) (notices : List GrantNotice)
  | barr (lock : Nat) (scope : BitVec 32) (notices : List StackNotice)
  | barrgrant (lock : Nat) (scope : BitVec 32) (notices : List GrantNotice)
  | rel (lock : Nat) (scope : BitVec 32) (notices : List StackNotice)
  | wtnt (lock : Nat) (notices : List StackNotice)
  | wait
  | waitgrant
  /-- `op + BCAST`: a message in a tree broadcast, with `temp` holding the root
  and the level. -/
  | bcast (root level : Nat) (msg : Msg)

/-- Messages a handler hands to the outqueue, in order, with their `topid`. -/
abbrev Out := List (Nat × Msg)

end Jiajia
