import Umicat.Relay.Lemmas.Loop

/-!
# Lengths of writes
-/

namespace Umicat.Relay

open Umicat.Upstream

variable {β : Type} {kind : Kind} {buf : Nat → β} {ins : List (ReadOutcome β)}
  {outs : List WriteOutcome}

/-- Every call of `uct_writen` is for the bytes just read. -/
def Handled.Exact (t : Handled β) : Prop :=
  ∀ c ∈ t.calls, c.len = c.placed.length ∧ c.len ≤ bufSize

theorem Handled.exact_after {c : Call β} {sent : List (List β)} {t : Handled β} :
    (t.after c sent).Exact ↔ (c.len = c.placed.length ∧ c.len ≤ bufSize) ∧ t.Exact :=
  List.forall_mem_cons

theorem relayLoop_exact (h : .error ∉ ins) : (relayLoop kind buf ins outs).Exact := by
  induction buf, ins, outs using relayLoop_induction with
  | round buf ins outs ih =>
      rw [error_mem_iff (by decide : 0 < bufSize), not_or] at h
      obtain ⟨_, heq⟩ | ⟨_, _, _, heq⟩ | ⟨len, hlen, hw⟩ := relayLoop_cases kind buf ins outs
      · rw [heq]
        exact nofun
      · rw [heq]
        exact nofun
      · obtain ⟨he, _⟩ | ⟨_, _, _, rfl⟩ := hlen
        · exact absurd he h.1
        · have hle := readn_length kind ins buf 0 bufSize
          obtain ⟨_, heq⟩ | ⟨_, hlt, heq⟩ := hw
          · rw [heq]
            intro c hc
            rw [List.mem_singleton.mp hc]
            exact ⟨rfl, hle⟩
          · rw [heq, Handled.exact_after]
            exact ⟨⟨rfl, hle⟩, ih _ _ _ hlt h.2⟩

theorem error_not_mem_of_exact (hread : (relayLoop kind buf ins outs).ins = [])
    (h : (relayLoop kind buf ins outs).Exact) : .error ∉ ins := by
  induction buf, ins, outs using relayLoop_induction with
  | round buf ins outs ih =>
      rw [error_mem_iff (by decide : 0 < bufSize), not_or]
      obtain ⟨he, heq⟩ | ⟨he, _, _, heq⟩ | ⟨len, hlen, hw⟩ := relayLoop_cases kind buf ins outs
      · rw [heq] at hread
        rw [he, show (readn kind ins buf 0 bufSize).rest = [] from hread]
        exact ⟨nofun, nofun⟩
      · rw [heq] at hread
        rw [show (readn kind ins buf 0 bufSize).rest = [] from hread]
        exact ⟨he, nofun⟩
      · have hne (hc : len = (readn kind ins buf 0 bufSize).placed.length ∧ len ≤ bufSize) :
            (readn kind ins buf 0 bufSize).exit ≠ .error := by
          obtain ⟨_, rfl⟩ | ⟨he, _⟩ := hlen
          · exact absurd hc.2 (by decide)
          · exact he
        obtain ⟨_, heq⟩ | ⟨_, hlt, heq⟩ := hw
        · rw [heq] at hread h
          rw [show (readn kind ins buf 0 bufSize).rest = [] from hread]
          exact ⟨hne (h _ (List.mem_singleton_self _)), nofun⟩
        · rw [heq] at hread h
          rw [Handled.exact_after] at h
          exact ⟨hne h.1, ih _ _ _ hlt hread h.2⟩

/-- The relay sends the bytes that it has read, in every loop, as long as no read fails; and among
outcomes that were all read, a failure always shows. -/
theorem exact_iff_no_hard_error (now : UInt64) (s : Srv) (buf : Nat → β)
    (ins : List (ReadOutcome β)) (outs : List WriteOutcome) :
    ∀ t ∈ [(epollProcessClientEvent now s buf ins outs).1,
        (epollProcessUpstreamEvent s buf ins outs).1, (epollProcessEventUdp s buf ins outs).1],
      (.error ∉ ins → t.Exact) ∧ (t.ins = [] → (t.Exact ↔ .error ∉ ins)) := by
  have hloop (kind : Kind) : (.error ∉ ins → (relayLoop kind buf ins outs).Exact) ∧
      ((relayLoop kind buf ins outs).ins = [] →
        ((relayLoop kind buf ins outs).Exact ↔ .error ∉ ins)) :=
    ⟨relayLoop_exact, fun hread => ⟨error_not_mem_of_exact hread, relayLoop_exact⟩⟩
  intro t ht
  simp only [List.mem_cons, List.not_mem_nil, or_false] at ht
  rcases ht with rfl | rfl | rfl
  · exact hloop .stream
  · exact hloop .stream
  · exact hloop .dgram

/-- Two chunks, then an interrupted read, then no more data. -/
theorem exact_iff_no_hard_error_two_chunks :
    (epollProcessClientEvent (β := UInt8) 0 default (fun _ => 0)
      [.data [7, 8], .data [9], .eintr, .eagain, .eagain] [.all]).1.Exact :=
  (exact_iff_no_hard_error (β := UInt8) 0 default (fun _ => 0)
    [.data [7, 8], .data [9], .eintr, .eagain, .eagain] [.all] _ List.mem_cons_self).1 (by decide)

/-- The first read fails with ECONNRESET: nothing is in the buffer, and `uct_writen` is called for
`2 ^ 64 - 1` bytes. -/
theorem reset_not_exact :
    (⟨18446744073709551615, []⟩ : Call UInt8) ∈
        (epollProcessClientEvent 0 default (fun _ => 0) [.error] [.error]).1.calls ∧
      ¬(epollProcessClientEvent (β := UInt8) 0 default (fun _ => 0) [.error] [.error]).1.Exact := by
  have hcall : (⟨18446744073709551615, []⟩ : Call UInt8) ∈
      (epollProcessClientEvent 0 default (fun _ => 0) [.error] [.error]).1.calls := by
    simp [epollProcessClientEvent, relayLoop, readn, Readn.ret, toSize, bufSize, writen,
      Handled.after]
  exact ⟨hcall, fun h => absurd (h _ hcall).2 (by decide)⟩

end Umicat.Relay
