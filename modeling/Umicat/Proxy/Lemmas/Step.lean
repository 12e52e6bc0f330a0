import Umicat.Proxy.Lemmas.Sound
import Umicat.Relay.Lemmas.Loop
import Umicat.Upstream.Lemmas.Select

/-!
# What a step can do

Eleven kinds of steps do six things to the state. The counters and the pairs are followed through
these.
-/

namespace Umicat.Upstream

/-! ## The counter of a server -/

theorem Srv.connectionN_credit (now : UInt64) (s : Srv) :
    (s.credit now).connectionN = s.connectionN := by
  unfold Srv.credit
  split
  · rfl
  · exact s.connectionN_bump now

theorem Srv.connectionN_retry (now : UInt64) (s : Srv) :
    (s.retry now).connectionN = s.connectionN := by
  unfold Srv.retry
  split
  · rfl
  · exact s.connectionN_bump now

theorem Srv.connectionN_refused {ret : Int} (hret : ret ≤ 0) (now : UInt64) (s : Srv) :
    (upstreamConnect ret now s).2.connectionN = s.connectionN := by
  rw [upstreamConnect, if_pos hret]
  exact s.connectionN_connectFail now

theorem Srv.connectionN_connected {fd : Int} (hfd : 0 < fd) (now : UInt64) (s : Srv) :
    (upstreamConnect fd now s).2.connectionN = s.connectionN + 1 := by
  rw [upstreamConnect, if_neg (not_le.mpr hfd)]
  exact s.connectionN_connectOk

theorem connectionN_choose (ring : List Point) (srvs : List Srv) {c : Choice}
    (hc : c.isLeastConn = false) :
    (choose ring srvs c).2.map Srv.connectionN = srvs.map Srv.connectionN := by
  cases c with
  | roundRobin now =>
      simp only [choose, upstreamRoundRobinGet]
      rw [Base.map_modify_of_eq fun s : Srv => show (s.pay _).connectionN = s.connectionN from rfl,
        List.map_map]
      exact List.map_congr_left fun s _ => s.connectionN_credit now
  | ipHash hash => rfl
  | leastConn now => cases hc
  | random now now' rand =>
      simp only [choose, upstreamRandomGet]
      by_cases ht : totalWeight now srvs = 0
      · rw [if_pos ht]
      · rw [if_neg ht]
        simp only [List.map_map]
        exact List.map_congr_left fun s _ => s.connectionN_retry now
  | heuristic => rfl

end Umicat.Upstream

namespace Umicat.Proxy

open Umicat.Base
open Umicat.Relay
open Umicat.Upstream

/-! ## Inversion of a step -/

/-- A step of `a` from `s`, by what it does. -/
inductive Sys.Moves (ring : List Point) (s : Sys) : Action → Sys → Prop
  | select (w : Nat) (c : Choice) (hw : s.phase w = some .accept) :
      Moves ring s (.select w c)
        ((s.goto w (.selected (choose ring s.srvs c).1)).withSrvs (choose ring s.srvs c).2)
  | connected (w i : Nat) {client upstream : Fd} {now : UInt64}
      (hw : s.phase w = some (.connecting i)) (hfresh : s.Fresh client upstream) :
      Moves ring s (.connectOk w client upstream now) (s.connected w i client upstream now)
  | refused (w i : Nat) {ret : Int} {now : UInt64} (hw : s.phase w = some (.connecting i))
      (hret : ret ≤ 0) :
      Moves ring s (.connectFail w ret now) (s.refused w i ret now)
  | goto {a : Action} {w : Nat} {k : Worker} {phase : Phase} (hk : s.workers[w]? = some k)
      (hbefore : k.phase.target = none) (hafter : phase.target = none)
      (hbatch : Batch k.clientEpoll phase.events ∨ Batch k.upstreamEpoll phase.events) :
      Moves ring s a (s.goto w phase)
  | handled {a : Action} {w : Nat} {p : Proxied} {before phase : Phase} {ending : Ending}
      {f : Srv → Srv} (hw : s.phase w = some before) (hbefore : before.target = none)
      (hafter : phase.target = none) (hev : before.events = p :: phase.events)
      (hf : ∀ srv, (f srv).connectionN =
        if ending = .closed then srv.connectionN - 1 else srv.connectionN) :
      Moves ring s a (s.handled w p phase ending f)
  | probe {a : Action} {i : Nat} {f : Srv → Srv} (hf : ∀ srv, (f srv).connectionN = srv.connectionN) :
      Moves ring s a (s.withSrvs (s.srvs.modify i f))

variable {ring : List Point} {s s' : Sys} {a : Action}

theorem Sys.Moves.quiet {w : Nat} {before phase : Phase} (hw : s.phase w = some before)
    (hbefore : before.target = none) (hafter : phase.target = none) (hev : phase.events = []) :
    Moves ring s a (s.goto w phase) := by
  obtain ⟨k, hk, rfl⟩ := Sys.phase_eq_some hw
  exact .goto hk hbefore hafter (Or.inl (hev ▸ ⟨List.nodup_nil, by simp, Nat.zero_le _⟩))

theorem step_clientWait {w : Nat} {evs : List Proxied}
    (h : s.step ring (.clientWait w evs) = some s') :
    ∃ k, s.workers[w]? = some k ∧ k.phase = .clientWait ∧ Batch k.clientEpoll evs ∧
      s' = s.goto w (.client evs) := by
  simp only [Sys.step] at h
  split at h
  · next hc =>
      cases h
      obtain ⟨k, hk, hphase⟩ := Sys.phase_eq_some hc.1
      have hbatch := hc.2
      rw [hk, Option.any_some, decide_eq_true_eq] at hbatch
      exact ⟨k, hk, hphase, hbatch, rfl⟩
  · cases h

theorem step_upstreamWait {w : Nat} {evs : List Proxied}
    (h : s.step ring (.upstreamWait w evs) = some s') :
    ∃ k, s.workers[w]? = some k ∧ k.phase = .client [] ∧ Batch k.upstreamEpoll evs ∧
      s' = s.goto w (.upstream evs) := by
  simp only [Sys.step] at h
  split at h
  · next hc =>
      cases h
      obtain ⟨k, hk, hphase⟩ := Sys.phase_eq_some hc.1
      have hbatch := hc.2
      rw [hk, Option.any_some, decide_eq_true_eq] at hbatch
      exact ⟨k, hk, hphase, hbatch, rfl⟩
  · cases h

theorem step_connectOk {w : Nat} {client upstream : Fd} {now : UInt64}
    (h : s.step ring (.connectOk w client upstream now) = some s') :
    ∃ i, s.phase w = some (.connecting i) ∧ s.Fresh client upstream ∧
      s' = s.connected w i client upstream now := by
  simp only [Sys.step] at h
  split at h
  · next i hw =>
      split at h
      · next hfresh =>
          cases h
          exact ⟨i, hw, hfresh, rfl⟩
      · cases h
  · cases h

theorem step_clientEvent {w : Nat} {now : UInt64} {buf : Nat → UInt8}
    {ins : List (ReadOutcome UInt8)} {outs : List WriteOutcome}
    (h : s.step ring (.clientEvent w now buf ins outs) = some s') :
    ∃ p evs, s.phase w = some (.client (p :: evs)) ∧
      (relayLoop .stream buf ins outs).ending ≠ .pending ∧
      s' = s.handled w p (.client evs) (relayLoop .stream buf ins outs).ending fun srv =>
        (epollProcessClientEvent now srv buf ins outs).2 := by
  simp only [Sys.step] at h
  split at h
  · next p evs hw =>
      split at h
      · cases h
      · next hend =>
          cases h
          exact ⟨p, evs, hw, hend, rfl⟩
  · cases h

theorem step_upstreamEvent {w : Nat} {buf : Nat → UInt8} {ins : List (ReadOutcome UInt8)}
    {outs : List WriteOutcome} (h : s.step ring (.upstreamEvent w buf ins outs) = some s') :
    ∃ p evs, s.phase w = some (.upstream (p :: evs)) ∧
      (relayLoop .stream buf ins outs).ending ≠ .pending ∧
      s' = s.handled w p (.upstream evs) (relayLoop .stream buf ins outs).ending fun srv =>
        (epollProcessUpstreamEvent srv buf ins outs).2 := by
  simp only [Sys.step] at h
  split at h
  · next p evs hw =>
      split at h
      · cases h
      · next hend =>
          cases h
          exact ⟨p, evs, hw, hend, rfl⟩
  · cases h

theorem Sys.moves_of_step (h : s.step ring a = some s') : s.Moves ring a s' := by
  cases a with
  | select w c =>
      simp only [Sys.step] at h
      split at h
      · next hw =>
          cases h
          exact .select w c hw
      · cases h
  | noClient w =>
      simp only [Sys.step] at h
      split at h
      · next hw =>
          cases h
          exact .quiet hw rfl rfl rfl
      · cases h
  | connectOk w client upstream now =>
      obtain ⟨i, hw, hfresh, rfl⟩ := step_connectOk h
      exact .connected w i hw hfresh
  | connectFail w ret now =>
      simp only [Sys.step] at h
      split at h
      · next i hw =>
          split at h
          · next hret =>
              cases h
              exact .refused w i hw hret
          · cases h
      · cases h
  | clientWait w evs =>
      obtain ⟨k, hk, hphase, hbatch, rfl⟩ := step_clientWait h
      exact .goto hk (hphase ▸ rfl) rfl (Or.inl hbatch)
  | clientEvent w now buf ins outs =>
      obtain ⟨p, evs, hw, -, rfl⟩ := step_clientEvent h
      exact .handled hw rfl rfl rfl fun srv => connectionN_clientEvent now srv buf ins outs
  | upstreamWait w evs =>
      obtain ⟨k, hk, hphase, hbatch, rfl⟩ := step_upstreamWait h
      exact .goto hk (hphase ▸ rfl) rfl (Or.inr hbatch)
  | upstreamEvent w buf ins outs =>
      obtain ⟨p, evs, hw, -, rfl⟩ := step_upstreamEvent h
      exact .handled hw rfl rfl rfl fun srv => connectionN_disconnect _ srv
  | again w =>
      simp only [Sys.step] at h
      split at h
      · next hw =>
          cases h
          exact .quiet hw rfl rfl rfl
      · cases h
  | checkInit i =>
      cases h
      exact .probe fun _ => rfl
  | check i p =>
      cases h
      exact .probe fun srv => srv.connectionN_checkTcpCycle p

/-! ## The pairs -/

/-- The action neither pairs a client nor handles an event. -/
def Action.still : Action → Bool
  | .connectOk _ _ _ _ => false
  | .clientEvent _ _ _ _ _ => false
  | .upstreamEvent _ _ _ _ => false
  | _ => true

theorem pairs_of_step (h : s.step ring a = some s') (ha : a.still = true) : s'.pairs = s.pairs := by
  cases a with
  | connectOk w client upstream now => cases ha
  | clientEvent w now buf ins outs => cases ha
  | upstreamEvent w buf ins outs => cases ha
  | clientWait w evs =>
      obtain ⟨k, -, -, -, rfl⟩ := step_clientWait h
      rfl
  | upstreamWait w evs =>
      obtain ⟨k, -, -, -, rfl⟩ := step_upstreamWait h
      rfl
  | connectFail w ret now =>
      simp only [Sys.step] at h
      split at h
      · split at h
        · cases h
          rfl
        · cases h
      · cases h
  | checkInit i =>
      cases h
      rfl
  | check i p =>
      cases h
      rfl
  | _ =>
      simp only [Sys.step] at h
      split at h
      · cases h
        rfl
      · cases h

theorem Sys.Sound.moves (hs : s.Sound) (h : s.Moves ring a s') : s'.Sound := by
  cases h with
  | select w c hw =>
      refine (hs.goto_quiet ?_).withSrvs _
      cases (choose ring s.srvs c).1 with
      | none => rfl
      | some i => rfl
  | connected w i hw hfresh => exact hs.connected hfresh _
  | refused w i hw hret =>
      have hgoto : (s.goto w .accept).Sound := hs.goto_quiet rfl
      exact ⟨hgoto.distinct, hgoto.ids, hgoto.below, hgoto.owns⟩
  | goto hk hbefore hafter hbatch => exact hs.batch hk hbatch
  | handled hw hbefore hafter hev hf => exact hs.handled hw hev _ _
  | probe hf => exact hs.withSrvs _

end Umicat.Proxy
