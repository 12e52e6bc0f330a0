import Umicat.Base.Run
import Umicat.Proxy.Lemmas.Count

/-!
# Connection accounting

Under every policy but the least connection rule a server is counted up only when a pair to it is
opened, and every pair that was opened is torn down at most once.
-/

namespace Umicat.Proxy

open Umicat.Base
open Umicat.Relay
open Umicat.Upstream

structure Sys.Balanced (s : Sys) : Prop where
  sound : s.Sound
  counts : Counts s.srvs s.openTo
  unwrapped : s.wrapped = false

variable {ring : List Point} {s s' : Sys} {a : Action} {w : Nat}

theorem balanced_init (mem : Nat → Srv) (cs : List Conf) (n : Nat) :
    (Sys.init (confParse mem cs) n).Balanced :=
  ⟨sound_init _ n, counts_confParse mem cs, rfl⟩

theorem Sys.Balanced.count (h : s.Balanced) {i : Nat} {srv : Srv} (hsrv : s.srvs[i]? = some srv) :
    srv.connectionN.toNat = s.openTo i := by
  have hle := openTo_le h.sound i
  rw [h.counts i srv hsrv, UInt64.toNat_ofNat']
  exact Nat.mod_eq_of_lt (by omega)

theorem Sys.Balanced.teardown_unwrapped (h : s.Balanced) {p : Proxied} (hp : p ∈ s.pairs)
    (hw : p.worker = w) : (s.teardown w p).wrapped = false := by
  have hsrv : s.srvs[p.srv]?.any (·.connectionN == 0) = false := by
    cases hget : s.srvs[p.srv]? with
    | none => rfl
    | some srv =>
        have hpos : 0 < s.openTo p.srv := List.countP_pos_iff.mpr ⟨p, hp, by simp⟩
        rw [← h.count hget] at hpos
        rw [Option.any_some, beq_eq_false_iff_ne]
        exact fun h0 => absurd (h0 ▸ hpos) (lt_irrefl 0)
  have hworker : s.workers[w]?.any (·.connectionN == 0) = false := by
    cases hget : s.workers[w]? with
    | none => rfl
    | some k =>
        have hpos : 0 < s.pairs.countP (·.worker = w) :=
          List.countP_pos_iff.mpr ⟨p, hp, by simp [hw]⟩
        rw [← (h.sound.owns w k hget).count] at hpos
        rw [Option.any_some, beq_eq_false_iff_ne]
        exact fun h0 => absurd (h0 ▸ hpos) (lt_irrefl 0)
  simp only [Sys.teardown, h.unwrapped, hsrv, hworker, Bool.or_self]

theorem Sys.Balanced.handled (h : s.Balanced) {p : Proxied} {before phase : Phase} {ending : Ending}
    {f : Srv → Srv} (hw : s.phase w = some before) (hev : before.events = p :: phase.events)
    (hf : ∀ srv, (f srv).connectionN =
      if ending = .closed then srv.connectionN - 1 else srv.connectionN) :
    (s.handled w p phase ending f).Balanced := by
  obtain ⟨hp, hworker⟩ := h.sound.event hw (hev ▸ List.mem_cons_self)
  have hsound := h.sound.handled hw hev ending f
  have hgoto : (s.goto w phase).Balanced := ⟨(h.sound.take hw hev).1, h.counts, h.unwrapped⟩
  unfold Sys.handled at hsound ⊢
  simp only at hsound ⊢
  split at hsound <;> rename_i hclosed
  · simp only [hclosed, ↓reduceIte] at hf ⊢
    exact ⟨hsound, h.counts.down hf (openTo_teardown hgoto.sound w hp),
      hgoto.teardown_unwrapped hp hworker⟩
  · simp only [hclosed, ↓reduceIte] at hf ⊢
    exact ⟨hsound, h.counts.same hf, h.unwrapped⟩

theorem Sys.Balanced.moves (h : s.Balanced) (hc : a.choice.all fun c => !c.isLeastConn)
    (hm : s.Moves ring a s') : s'.Balanced := by
  have hsound := h.sound.moves hm
  cases hm with
  | select w c hw =>
      have hother : c.isLeastConn = false := by simpa [Action.choice] using hc
      exact ⟨hsound, h.counts.of_map (connectionN_choose ring s.srvs hother), h.unwrapped⟩
  | connected w i hw hfresh =>
      exact ⟨hsound, h.counts.up (Srv.connectionN_connected hfresh.fd_pos _)
        (openTo_connected s w i _ _ _), h.unwrapped⟩
  | refused w i hw hret =>
      exact ⟨hsound, h.counts.same (Srv.connectionN_refused hret _), h.unwrapped⟩
  | goto hk hbefore hafter hbatch => exact ⟨hsound, h.counts, h.unwrapped⟩
  | handled hw hbefore hafter hev hf => exact h.handled hw hev hf
  | probe hf => exact ⟨hsound, h.counts.same hf, h.unwrapped⟩

/-- In every state that workers reach by any interleaving without the least connection rule, each
server and each worker is counted at the number of its open pairs, no pair was torn down twice or is
still open behind its teardown, and no counter was counted down from 0. -/
theorem connection_accounting (mem : Nat → Srv) (cs : List Conf) (n : Nat) {as : List Action}
    (hpolicy : ∀ a ∈ as, a.choice.all fun c => !c.isLeastConn)
    (h : (Sys.init (confParse mem cs) n).run ring as = some s) :
    (∀ (i : Nat) (srv : Srv), s.srvs[i]? = some srv → srv.connectionN.toNat = s.openTo i) ∧
      (∀ (w : Nat) (k : Worker), s.workers[w]? = some k →
        k.connectionN.toNat = s.pairs.countP (·.worker = w)) ∧
      (s.pairs.map Proxied.id ++ s.torn).Nodup ∧ s.wrapped = false := by
  have hbalanced : s.Balanced := by
    refine invariant_foldlM ?_ (balanced_init mem cs n) h
    intro s a s' ha hs hstep
    exact hs.moves (hpolicy a ha) (Sys.moves_of_step hstep)
  exact ⟨fun i srv => hbalanced.count, fun w k hk => (hbalanced.sound.owns w k hk).count,
    hbalanced.sound.ids, hbalanced.unwrapped⟩

/-- Two workers open a pair each; one of the clients disconnects. -/
theorem connection_accounting_two :
    let c : Conf := ⟨[49], 80, 1, 1, 10, 1, 0, none⟩
    let as : List Action := [.select 0 (.roundRobin 5), .select 1 (.roundRobin 5), .connectOk 1 3 4 5,
      .connectOk 0 5 6 6, .clientWait 0 [⟨1, 0, 5, 6, 0⟩], .clientEvent 0 7 (fun _ => 0) [.eof] []]
    ∃ s, (Sys.init (confParse (fun _ => default) [c, c]) 2).run [] as = some s ∧ s.torn = [1] ∧
      (∀ (i : Nat) (srv : Srv), s.srvs[i]? = some srv → srv.connectionN.toNat = s.openTo i) ∧
      (∀ (w : Nat) (k : Worker), s.workers[w]? = some k →
        k.connectionN.toNat = s.pairs.countP (·.worker = w)) ∧
      (s.pairs.map Proxied.id ++ s.torn).Nodup ∧ s.wrapped = false := by
  intro c as
  have hrun : ((Sys.init (confParse (fun _ => default) [c, c]) 2).run [] as).map Sys.torn =
      some [1] := by decide +kernel
  obtain ⟨s, hrun, htorn⟩ := Option.map_eq_some_iff.mp hrun
  exact ⟨s, hrun, htorn, connection_accounting _ _ 2 (by decide) hrun⟩

end Umicat.Proxy
