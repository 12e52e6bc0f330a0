import Mathlib.Logic.Function.Basic
import Umicat.Relay.Theorems.Traffic
import Umicat.Upstream.Lemmas.Select

/-!
# The heuristic rule and old traffic

`traffic` is set back only when the server relays again, and the heuristic rule compares the fields
as they are. A server that has been idle for long keeps the traffic of its last window.
-/

namespace Umicat.Relay

open Umicat.Base
open Umicat.Upstream

variable {β : Type}

/-- The servers, with the time at which each of them last relayed bytes of a client. -/
structure Trace where
  srvs : List Srv
  last : Nat → Option UInt64

/-- A client event of a connection to server `i`, or a step of the balancer. -/
inductive Move (β : Type)
  | relay (i : Nat) (e : ClientEvent β)
  | balance (e : Event)

def Trace.step (ring : List Point) (g : Trace) : Move β → Trace
  | .relay i e =>
      ⟨g.srvs.modify i e.act,
        if e.batch = none then g.last else Function.update g.last i (some e.now)⟩
  | .balance e => { g with srvs := after ring g.srvs e }

def Trace.start (mem : Nat → Srv) (cs : List Conf) : Trace := ⟨confParse mem cs, fun _ => none⟩

def Trace.run (ring : List Point) (g : Trace) (ms : List (Move β)) : Trace :=
  ms.foldl (Trace.step ring) g

/-- Server `i` has relayed bytes within its last `traffic_window` seconds. -/
def Trace.Busy (g : Trace) (now : UInt64) (i : Nat) : Prop :=
  ∃ s ∈ g.srvs[i]?, ∃ t ∈ g.last i, now.toNat < t.toNat + s.trafficWindow.toNat

instance instDecidableBusy (g : Trace) (now : UInt64) (i : Nat) : Decidable (g.Busy now i) :=
  inferInstanceAs (Decidable
    (∃ s ∈ g.srvs[i]?, ∃ t ∈ g.last i, now.toNat < t.toNat + s.trafficWindow.toNat))

def Trace.IdleUp (g : Trace) (now : UInt64) (i : Nat) : Prop :=
  ¬g.Busy now i ∧ ∃ s ∈ g.srvs[i]?, s.isDown = false

instance instDecidableIdleUp (g : Trace) (now : UInt64) (i : Nat) : Decidable (g.IdleUp now i) :=
  inferInstanceAs (Decidable (¬g.Busy now i ∧ ∃ s ∈ g.srvs[i]?, s.isDown = false))

/-- The heuristic rule does not choose a busy server while another one is up and idle. -/
def Trace.PrefersIdle (g : Trace) (now : UInt64) : Prop :=
  ¬(g.Busy now (upstreamHeuristicGet g.srvs) ∧
    ∃ j, j ≠ upstreamHeuristicGet g.srvs ∧ g.IdleUp now j)

/-! ## The condition -/

/-- Server `i` is up or may not be replaced, and its traffic is below the starting minimum. -/
def Trace.Considered (g : Trace) (i : Nat) (s : Srv) : Prop :=
  g.srvs[i]? = some s ∧ (s.isDown = false ∨ s.isFallback = false) ∧ s.traffic < maxIntT

/-- No server is up and idle; or some idle server has less traffic than every busy one, or the same
and an earlier place; or no server is considered and server 0 is idle. -/
def Trace.IdleLowest (g : Trace) (now : UInt64) : Prop :=
  (∀ j, ¬g.IdleUp now j) ∨
  (∃ m s, g.Considered m s ∧ ¬g.Busy now m ∧
    ∀ k t, g.Considered k t → g.Busy now k → s.traffic < t.traffic ∨ s.traffic = t.traffic ∧ m < k) ∨
  (∀ k t, ¬g.Considered k t) ∧ ¬g.Busy now 0

theorem Trace.prefersIdle_or (g : Trace) (now : UInt64) :
    g.PrefersIdle now ↔
      (∀ j, ¬g.IdleUp now j) ∨ ¬g.Busy now (upstreamHeuristicGet g.srvs) := by
  unfold Trace.PrefersIdle
  constructor
  · intro h
    by_contra hno
    obtain ⟨hidle, hbusy⟩ := not_or.mp hno
    obtain ⟨j, hj⟩ := not_forall.mp hidle
    have hbusy := not_not.mp hbusy
    have hj := not_not.mp hj
    exact h ⟨hbusy, j, fun heq => hj.1 (heq ▸ hbusy), hj⟩
  · rintro (hno | hidle) ⟨hbusy, j, -, hj⟩
    · exact hno j hj
    · exact hidle hbusy

theorem Trace.prefersIdle_iff (g : Trace) (now : UInt64) :
    g.PrefersIdle now ↔ g.IdleLowest now := by
  have hscan := scan_satisfies_iff (fun s : Srv => !(s.isDown && s.isFallback)) Srv.traffic (· < ·)
    g.srvs maxIntT (fun i => ¬g.Busy now i)
  have htie (s t : Srv) (h : ¬t.traffic < s.traffic) :
      s.traffic < t.traffic ∨ s.traffic = t.traffic := lt_or_eq_of_le (not_lt.mp h)
  rw [g.prefersIdle_or now]
  refine or_congr Iff.rfl (hscan.trans (or_congr ⟨?_, ?_⟩ (and_congr ⟨?_, ?_⟩ Iff.rfl)))
  · rintro ⟨m, s, hs, hc, hlt, hidle, hwins⟩
    refine ⟨m, s, ⟨hs, s.heuristic_iff.mp hc, hlt⟩, hidle, fun k t ht hbusy => ?_⟩
    obtain ⟨hget, hcand, hlt'⟩ := ht
    rcases hwins k t hget (t.heuristic_iff.mpr hcand) hlt' (not_not.mpr hbusy) with h | ⟨h, hmk⟩
    · exact Or.inl h
    · exact (htie s t h).imp id fun heq => ⟨heq, hmk⟩
  · rintro ⟨m, s, ⟨hs, hc, hlt⟩, hidle, hwins⟩
    refine ⟨m, s, hs, s.heuristic_iff.mpr hc, hlt, hidle, fun k t ht hcand hlt' hbusy => ?_⟩
    rcases hwins k t ⟨ht, t.heuristic_iff.mp hcand, hlt'⟩ (not_not.mp hbusy) with h | ⟨h, hmk⟩
    · exact Or.inl h
    · exact Or.inr ⟨h ▸ lt_irrefl _, hmk⟩
  · rintro hno k t ⟨ht, hc, hlt⟩
    exact hno t (List.mem_of_getElem? ht) (t.heuristic_iff.mpr hc) hlt
  · intro hno t ht hc hlt
    obtain ⟨k, hk⟩ := List.mem_iff_getElem?.mp ht
    exact hno k t ⟨hk, t.heuristic_iff.mp hc, hlt⟩

/-- In every state that relaying and balancing lead to, in any order, the heuristic rule prefers idle
servers if and only if the condition holds there. -/
theorem heuristic_prefersIdle_iff (ring : List Point) (mem : Nat → Srv) (cs : List Conf)
    (ms : List (Move β)) (now : UInt64) :
    let g := (Trace.start mem cs).run ring ms
    g.PrefersIdle now ↔ g.IdleLowest now :=
  Trace.prefersIdle_iff _ now

/-- With windows of 10 seconds, server 0 relays two bytes at time 100 and server 1 relays one byte at
time 200. At time 205 server 1 is chosen, although server 0 has been idle for 105 seconds. -/
theorem heuristic_chooses_busy :
    let c : Conf := ⟨[49], 80, 1, 1, 10, 1, 10, none⟩
    let e (now : UInt64) (bs : List Nat) : ClientEvent Nat :=
      ⟨now, fun _ => 0, [.data bs, .eagain, .eagain], [.all]⟩
    let g := (Trace.start (fun _ => default) [c, c]).run [] [.relay 0 (e 100 [1, 2]), .relay 1 (e 200 [3])]
    ¬g.PrefersIdle 205 := by
  intro c e g h
  exact h ⟨by decide +kernel, 0, by decide +kernel, by decide +kernel⟩

end Umicat.Relay
