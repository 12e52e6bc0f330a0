import Umicat.Base.Run
import Umicat.Relay.Loop

/-!
# The traffic of a window

A client event that relays bytes adds them to the server's `traffic` once before it looks at the
window and once more when the window is still open.
-/

namespace Umicat.Relay

open Umicat.Base
open Umicat.Upstream

variable {β : Type}

/-! ## Batches -/

/-- One event of the client set, with the time at which its bytes are counted. -/
structure ClientEvent (β : Type) where
  now : UInt64
  buf : Nat → β
  ins : List (ReadOutcome β)
  outs : List WriteOutcome

def ClientEvent.handled (e : ClientEvent β) : Handled β := relayLoop .stream e.buf e.ins e.outs

/-- `conn_traffic` of an event that relays a batch. -/
def ClientEvent.batch (e : ClientEvent β) : Option UInt64 :=
  if e.handled.ending ≠ .pending ∧ e.handled.connTraffic > 0 then some e.handled.connTraffic else none

/-- What `uct_epoll_process_events` does to the server. -/
def ClientEvent.act (e : ClientEvent β) (s : Srv) : Srv :=
  (epollProcessClientEvent e.now s e.buf e.ins e.outs).2

/-- The event sets `last_send_time` if it relays a batch. -/
def ClientEvent.Opens (e : ClientEvent β) (s : Srv) : Prop :=
  e.now - s.lastSendTime ≥ s.trafficWindow

instance instDecidableOpens (e : ClientEvent β) (s : Srv) : Decidable (e.Opens s) :=
  inferInstanceAs (Decidable (e.now - s.lastSendTime ≥ s.trafficWindow))

theorem disconnect_frame (ending : Ending) (s : Srv) :
    ∃ n, disconnect ending s = { s with connectionN := n } := by
  unfold disconnect
  split
  · exact ⟨_, rfl⟩
  · exact ⟨s.connectionN, rfl⟩

theorem ClientEvent.batch_pos {e : ClientEvent β} {n : UInt64} (h : e.batch = some n) :
    0 < n.toNat := by
  unfold ClientEvent.batch at h
  split at h
  · next hpos =>
      cases h
      exact UInt64.lt_iff_toNat_lt.mp hpos.2
  · cases h

theorem ClientEvent.act_eq (e : ClientEvent β) (s : Srv) :
    e.act s = disconnect e.handled.ending
      (if e.handled.ending ≠ .pending ∧ e.handled.connTraffic > 0 then
        addTraffic e.now e.handled.connTraffic s else s) := rfl

theorem ClientEvent.act_none {e : ClientEvent β} (h : e.batch = none) (s : Srv) :
    ∃ n, e.act s = { s with connectionN := n } := by
  unfold ClientEvent.batch at h
  split at h
  · cases h
  · next hno =>
      rw [e.act_eq, if_neg hno]
      exact disconnect_frame _ s

theorem ClientEvent.act_some {e : ClientEvent β} {n : UInt64} (h : e.batch = some n) (s : Srv) :
    ∃ k, e.act s = { addTraffic e.now n s with connectionN := k } := by
  unfold ClientEvent.batch at h
  split at h
  · next hyes =>
      cases h
      rw [e.act_eq, if_pos hyes]
      exact disconnect_frame _ _
  · cases h

theorem ClientEvent.traffic_act {e : ClientEvent β} {n : UInt64} (h : e.batch = some n) (s : Srv) :
    (e.act s).traffic = if e.Opens s then n else s.traffic + n + n := by
  obtain ⟨k, hk⟩ := e.act_some h s
  rw [hk]
  by_cases ho : e.now - s.lastSendTime ≥ s.trafficWindow
  · simp [addTraffic, ClientEvent.Opens, ho]
  · simp [addTraffic, ClientEvent.Opens, ho]

/-! ## The window -/

/-- A server with the batches since `last_send_time` was set, the last one first. The list is empty as
long as no batch has set it. -/
structure Ledger where
  srv : Srv
  window : List UInt64
deriving Repr, DecidableEq

def Ledger.total (g : Ledger) : Nat := (g.window.map UInt64.toNat).sum

def Ledger.step (g : Ledger) (e : ClientEvent β) : Ledger where
  srv := e.act g.srv
  window :=
    match e.batch with
    | none => g.window
    | some n => if e.Opens g.srv then [n] else if g.window = [] then [] else n :: g.window

/-- Behind a batch in or after the first window, `traffic` is the sum of the batches of the window. -/
def Ledger.Exact (g : Ledger) (e : ClientEvent β) : Prop :=
  e.batch ≠ none → (g.step e).window ≠ [] → (g.step e).srv.traffic.toNat = (g.step e).total

/-- A batch after the first window was opened opens a window itself. -/
def Ledger.Renewed (g : Ledger) (e : ClientEvent β) : Prop :=
  e.batch ≠ none → g.window ≠ [] → e.Opens g.srv

/-- `traffic` is the sum and some of the batches once more. -/
def Ledger.Counted (g : Ledger) : Prop :=
  g.window ≠ [] → ∃ extra ≤ g.total, g.srv.traffic.toNat = (g.total + extra) % 2 ^ 64

variable {g : Ledger} {e : ClientEvent β}

theorem Ledger.step_none (h : e.batch = none) :
    (g.step e).window = g.window ∧ (g.step e).srv.traffic = g.srv.traffic := by
  obtain ⟨k, hk⟩ := e.act_none h g.srv
  simp only [Ledger.step, h, hk, and_self]

theorem Ledger.step_opens {n : UInt64} (h : e.batch = some n) (ho : e.Opens g.srv) :
    (g.step e).window = [n] ∧ (g.step e).srv.traffic = n := by
  simp only [Ledger.step, h, ho, ↓reduceIte, ClientEvent.traffic_act h, and_self]

theorem Ledger.step_adds {n : UInt64} (h : e.batch = some n) (ho : ¬e.Opens g.srv) :
    (g.step e).window = (if g.window = [] then [] else n :: g.window) ∧
      (g.step e).srv.traffic = g.srv.traffic + n + n := by
  simp only [Ledger.step, h, ho, ↓reduceIte, ClientEvent.traffic_act h, and_self]

/-- A batch that finds the window open is counted twice. -/
theorem Ledger.Counted.adds {n : UInt64} (hc : g.Counted) (h : e.batch = some n)
    (ho : ¬e.Opens g.srv) (hw : g.window ≠ []) :
    (g.step e).total = g.total + n.toNat ∧
      ∃ extra, n.toNat ≤ extra ∧ extra ≤ (g.step e).total ∧
        (g.step e).srv.traffic.toNat = ((g.step e).total + extra) % 2 ^ 64 := by
  obtain ⟨hwindow, htraffic⟩ := Ledger.step_adds h ho
  obtain ⟨extra, hle, heq⟩ := hc hw
  have htotal : (g.step e).total = g.total + n.toNat := by
    rw [Ledger.total, hwindow, if_neg hw, List.map_cons, List.sum_cons, Ledger.total]
    omega
  refine ⟨htotal, extra + n.toNat, by omega, by omega, ?_⟩
  rw [htraffic, UInt64.toNat_add, UInt64.toNat_add, heq, htotal]
  omega

theorem Ledger.Counted.step (h : g.Counted) : (g.step e).Counted := by
  intro hw
  cases hb : e.batch with
  | none =>
      obtain ⟨hwindow, htraffic⟩ := Ledger.step_none (g := g) hb
      rw [Ledger.total, htraffic, hwindow]
      exact h (hwindow ▸ hw)
  | some n =>
      by_cases ho : e.Opens g.srv
      · obtain ⟨hwindow, htraffic⟩ := Ledger.step_opens hb ho
        refine ⟨0, Nat.zero_le _, ?_⟩
        rw [Ledger.total, hwindow, htraffic]
        simp
      · have hw' : g.window ≠ [] := by
          intro hnil
          rw [(Ledger.step_adds hb ho).1, if_pos hnil] at hw
          exact hw rfl
        obtain ⟨-, extra, -, hle, heq⟩ := h.adds hb ho hw'
        exact ⟨extra, hle, heq⟩

theorem Ledger.Counted.exact_iff (h : g.Counted) : g.Exact e ↔ g.Renewed e := by
  unfold Ledger.Exact Ledger.Renewed
  cases hb : e.batch with
  | none => simp
  | some n =>
      by_cases ho : e.Opens g.srv
      · obtain ⟨hwindow, htraffic⟩ := Ledger.step_opens hb ho
        simp [ho, hwindow, htraffic, Ledger.total]
      · obtain ⟨hwindow, -⟩ := Ledger.step_adds hb ho
        by_cases hw : g.window = []
        · simp [hwindow, hw]
        · -- the word would have to wrap by less than its range
          obtain ⟨-, extra, hextra, hle, heq⟩ := h.adds hb ho hw
          have hpos := ClientEvent.batch_pos hb
          have hlt : (g.step e).srv.traffic.toNat < 2 ^ 64 := UInt64.toNat_lt _
          have hne : (g.step e).srv.traffic.toNat ≠ (g.step e).total := by omega
          simp [hwindow, hw, ho, hne]

/-- In a sequence of client events of one server, `traffic` is exact behind every batch if and only if
every batch after the first window was opened opens a window itself. -/
theorem traffic_exact_iff (s : Srv) (es : List (ClientEvent β)) :
    Along Ledger.step Ledger.Renewed ⟨s, []⟩ es ↔ Along Ledger.step Ledger.Exact ⟨s, []⟩ es :=
  Along.iff_of_invariant (I := Ledger.Counted) (fun _ _ h _ => h.step)
    (fun _ _ h => h.exact_iff.symm) nofun

/-- With a window of 30 seconds, a byte at time 100 and a byte at time 105 are counted as three. -/
theorem traffic_counted_twice :
    let s := confParseUpstream default ⟨[49], 80, 1, 1, 10, 1, 30, none⟩
    let e (now : UInt64) : ClientEvent Nat := ⟨now, fun _ => 0, [.data [7], .eagain, .eagain], [.all]⟩
    ¬Along Ledger.step Ledger.Exact ⟨s, []⟩ [e 100, e 105] := by
  intro s e h
  have hsum := h.2.1 (by decide +kernel) (by decide +kernel)
  revert hsum
  decide +kernel

end Umicat.Relay
