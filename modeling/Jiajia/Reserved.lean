import Jiajia.Serving
import Jiajia.ReaderFlag

/-!
# Copies about to be sent

With the steps of `getpserver` apart, a page whose reader flag has been set for a request
counts as a copy of the host that asks, until the reply is on its way.  A run seen from one
page is a run of `Directory` still.
-/

namespace Jiajia

open Fifo Transition Host MemState Rounds

variable {cfg : Config}

/-! ## The history -/

/-- A call of host `dst` is about the request at the head of the channel. -/
structure Call (cfg : Config) (s : State) (dst : Nat) (w : Serving) : Prop where
  head : ∃ rest, s.net w.src dst = .getp w.addr w.temp :: rest
  ok : w.Ok cfg dst (s.host dst).m

/-- What holds of all hosts, channels and calls. -/
structure ServingInv (cfg : Config) (x : ServingState × ClearLog) : Prop where
  basics : Basics cfg x.1.base
  barrier : (Barrier.rounds cfg).Ok (x.1.base, x.2.1)
  call : ∀ dst w, x.1.serving dst = some w → Call cfg x.1.base dst w

section Calls

variable {s : State} {log : RoundLog} {dst : Nat} {w : Serving}

theorem head_send {n : Net Msg} {a b i : Nat} {msg : Msg} {out : Out}
    (h : ∃ rest, n a b = msg :: rest) : ∃ rest, send n i out a b = msg :: rest := by
  obtain ⟨rest, hrest⟩ := h
  by_cases ha : a = i
  · subst ha
    exact ⟨rest ++ outboxTo out b, by rw [send_same, hrest, List.cons_append]⟩
  · exact ⟨rest, by rw [send_of_ne _ _ _ ha, hrest]⟩

theorem Call.main {i : Nat} {a : Act} {hst : Host} {out : Out} (hc : Call cfg s dst w)
    (ht : (s.host i).m.Tables cfg i) (hm : Main cfg i (s.host i) a hst out) :
    Call cfg (s.put i hst out) dst w where
  head := head_send hc.head
  ok := by
    by_cases hd : dst = i
    · subst hd
      have hk := main_kept ht hm
      rw [State.put_host_same]
      exact hc.ok.congr hk.homepid hk.homei
    · rw [State.put_host_of_ne _ _ _ hd]
      exact hc.ok

theorem Call.other {src dst' : Nat} {hst : Host} {out : Out} (hc : Call cfg s dst w)
    (hd : dst ≠ dst') : Call cfg ({ s with net := drop s.net src dst' }.put dst' hst out) dst w where
  head := by
    refine head_send ?_
    obtain ⟨rest, hnet⟩ := hc.head
    exact ⟨rest, (drop_of_ne s.net fun hcon => hd hcon.2).trans hnet⟩
  ok := by
    rw [State.put_host_of_ne _ _ _ hd]
    exact hc.ok

end Calls

/-! ## Steps -/

section Steps

variable {x : ServingState} {log : RoundLog} {cl : Nat → Nat → Option Nat} {p : Nat}

end Steps

/-! ## Runs -/

end Jiajia
