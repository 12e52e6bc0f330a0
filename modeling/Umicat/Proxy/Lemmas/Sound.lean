import Mathlib.Data.Fintype.Card
import Mathlib.Data.List.Nodup
import Mathlib.Data.List.Pairwise
import Umicat.Base.Modify
import Umicat.Proxy.System

/-!
# Workers and their pairs

The epoll sets of a worker hold its open pairs and nothing else, so that every event a worker has
still to handle is one of an open pair of its own. This does not depend on the policy.
-/

namespace Umicat.Proxy

open Umicat.Base
open Umicat.Relay
open Umicat.Upstream

/-! ## Descriptors of open pairs -/

section Descriptors

variable {pairs : List Proxied} {p q : Proxied}

theorem fds_ne (h : (fds pairs).Nodup) (hq : q ∈ pairs) (hp : p ∈ pairs) (hne : q ≠ p) :
    q.client ≠ p.client ∧ q.client ≠ p.upstream ∧ q.upstream ≠ p.client ∧
      q.upstream ≠ p.upstream := by
  have : Std.Symm (Function.onFun List.Disjoint fun p : Proxied => [p.client, p.upstream]) :=
    ⟨fun a b hab => hab.symm⟩
  have hd : List.Disjoint [p.client, p.upstream] [q.client, q.upstream] :=
    (List.nodup_flatMap.mp h).2.forall hp hq hne.symm
  simpa [and_assoc] using hd

theorem fds_sublist {pairs' : List Proxied} (h : (fds pairs).Nodup) (hsub : pairs'.Sublist pairs) :
    (fds pairs').Nodup := by
  obtain ⟨hnodup, hd⟩ := List.nodup_flatMap.mp h
  exact List.nodup_flatMap.mpr ⟨fun x hx => hnodup x (hsub.subset hx), hd.sublist hsub⟩

/-- Closing both descriptors of `p` takes `p` and no other pair out of an epoll set, be it one of
client or one of upstream descriptors. -/
theorem filter_closed {fd : Proxied → Fd} (hfd : ∀ q, fd q = q.client ∨ fd q = q.upstream)
    (h : (fds pairs).Nodup) (hp : p ∈ pairs) (w : Nat) :
    ((pairs.filter (·.worker = w)).filter (fd · ≠ p.client)).filter (fd · ≠ p.upstream) =
      (pairs.filter (· ≠ p)).filter (·.worker = w) := by
  simp only [List.filter_filter]
  apply List.filter_congr
  intro q hq
  by_cases hne : q = p
  · rcases hfd p with hp | hp <;> simp [hne, hp]
  · rcases hfd q with hq' | hq' <;> simp [hne, hq', fds_ne h hq hp hne]

theorem length_pairs (h : (fds pairs).Nodup) : pairs.length ≤ 2 ^ 31 := by
  have hlen : (fds pairs).length = pairs.length * 2 := by
    simp [fds, List.length_flatMap]
  have hcard := h.length_le_card
  rw [Fintype.card_fin] at hcard
  omega

end Descriptors

/-! ## The invariant -/

structure Worker.Owns (pairs : List Proxied) (w : Nat) (k : Worker) : Prop where
  client : k.clientEpoll = pairs.filter (·.worker = w)
  upstream : k.upstreamEpoll = pairs.filter (·.worker = w)
  count : k.connectionN.toNat = pairs.countP (·.worker = w)
  nodup : k.phase.events.Nodup
  opened : ∀ p ∈ k.phase.events, p ∈ pairs ∧ p.worker = w

structure Sys.Sound (s : Sys) : Prop where
  distinct : (fds s.pairs).Nodup
  ids : (s.pairs.map Proxied.id ++ s.torn).Nodup
  below : ∀ i ∈ s.pairs.map Proxied.id ++ s.torn, i < s.nextId
  owns : ∀ (w : Nat) (k : Worker), s.workers[w]? = some k → k.Owns s.pairs w

theorem sound_init (srvs : List Srv) (n : Nat) : (Sys.init srvs n).Sound := by
  refine ⟨List.nodup_nil, List.nodup_nil, by simp [Sys.init], ?_⟩
  intro w k hk
  obtain ⟨_, rfl⟩ := List.mem_replicate.mp (List.mem_of_getElem? hk)
  exact ⟨rfl, rfl, rfl, List.nodup_nil, by simp [Phase.events]⟩

variable {s : Sys} {w : Nat} {p : Proxied}

theorem Sys.Fresh.fd_pos {client upstream : Fd} (h : s.Fresh client upstream) :
    (0 : Int) < upstream.val :=
  Int.natCast_pos.mpr (Fin.lt_def.mp h.1)

theorem Sys.Sound.nodup (h : s.Sound) : s.pairs.Nodup :=
  (List.nodup_append.mp h.ids).1.of_map _

theorem Sys.phase_eq_some {phase : Phase} (h : s.phase w = some phase) :
    ∃ k, s.workers[w]? = some k ∧ k.phase = phase :=
  Option.map_eq_some_iff.mp h

theorem Sys.Sound.event (h : s.Sound) {phase : Phase} (hphase : s.phase w = some phase)
    (hp : p ∈ phase.events) : p ∈ s.pairs ∧ p.worker = w := by
  obtain ⟨k, hk, rfl⟩ := Sys.phase_eq_some hphase
  exact (h.owns w k hk).opened p hp

/-! ## Operations keep the invariant -/

theorem Sys.Sound.goto (h : s.Sound) {phase : Phase} (hnodup : phase.events.Nodup)
    (hopen : ∀ p ∈ phase.events, p ∈ s.pairs ∧ p.worker = w) : (s.goto w phase).Sound := by
  refine ⟨h.distinct, h.ids, h.below, ?_⟩
  intro v k hk
  obtain ⟨x, hx, rfl⟩ := getElem?_modify_eq_some hk
  have hown := h.owns v x hx
  split
  · next hv =>
      subst hv
      exact ⟨hown.client, hown.upstream, hown.count, hnodup, hopen⟩
  · exact hown

theorem Sys.Sound.goto_quiet (h : s.Sound) {phase : Phase} (hev : phase.events = []) :
    (s.goto w phase).Sound :=
  h.goto (hev ▸ List.nodup_nil) (by simp [hev])

theorem Sys.Sound.withSrvs (h : s.Sound) (srvs : List Srv) : (s.withSrvs srvs).Sound :=
  ⟨h.distinct, h.ids, h.below, h.owns⟩

theorem Worker.Owns.connected {pairs : List Proxied} {v : Nat} {k : Worker} (h : k.Owns pairs v)
    (hlen : pairs.length ≤ 2 ^ 31) (p : Proxied) :
    (if p.worker = v then k.epollAddProxyConnection p else k).Owns (p :: pairs) v := by
  split
  · next hv =>
      refine ⟨?_, ?_, ?_, List.nodup_nil, by simp [Worker.epollAddProxyConnection, Phase.events]⟩
      · simp [Worker.epollAddProxyConnection, hv, h.client]
      · simp [Worker.epollAddProxyConnection, hv, h.upstream]
      · have hle := List.countP_le_length (p := fun q : Proxied => decide (q.worker = v)) (l := pairs)
        have hcount := h.count
        simp only [Worker.epollAddProxyConnection, UInt64.toNat_add, hcount, List.countP_cons, hv,
          decide_true, ↓reduceIte]
        exact Nat.mod_eq_of_lt (by simp only [UInt64.toNat_one]; omega)
  · next hv =>
      refine ⟨by simp [hv, h.client], by simp [hv, h.upstream], by simp [hv, h.count], h.nodup, ?_⟩
      intro q hq
      exact ⟨List.mem_cons_of_mem _ (h.opened q hq).1, (h.opened q hq).2⟩

theorem Sys.Sound.connected (h : s.Sound) {i : Nat} {client upstream : Fd}
    (hfresh : s.Fresh client upstream) (now : UInt64) :
    (s.connected w i client upstream now).Sound := by
  obtain ⟨-, hne, hclient, hupstream⟩ := hfresh
  refine ⟨?_, ?_, ?_, ?_⟩
  · have hcons : fds (s.connected w i client upstream now).pairs =
        client :: upstream :: fds s.pairs := rfl
    rw [hcons, List.nodup_cons, List.nodup_cons, List.mem_cons, not_or]
    exact ⟨⟨hne, hclient⟩, hupstream, h.distinct⟩
  · exact List.nodup_cons.mpr ⟨fun hmem => absurd (h.below _ hmem) (lt_irrefl _), h.ids⟩
  · exact List.forall_mem_cons.mpr ⟨Nat.lt_succ_self _, fun j hj => Nat.lt_succ_of_lt (h.below j hj)⟩
  · intro v k hk
    obtain ⟨x, hx, rfl⟩ := getElem?_modify_eq_some hk
    exact (h.owns v x hx).connected (length_pairs h.distinct) _

theorem Worker.Owns.teardown {v : Nat} {k : Worker} (h : k.Owns s.pairs v) (hs : s.Sound)
    (hp : p ∈ s.pairs) (hev : p ∉ k.phase.events) :
    (if p.worker = v then ((k.close p.client).close p.upstream).countDown
      else (k.close p.client).close p.upstream).Owns (s.pairs.filter (· ≠ p)) v := by
  have hclient : ((k.close p.client).close p.upstream).clientEpoll =
      (s.pairs.filter (· ≠ p)).filter (·.worker = v) := by
    rw [← filter_closed (fun q => Or.inl rfl) hs.distinct hp v, ← h.client]
    rfl
  have hupstream : ((k.close p.client).close p.upstream).upstreamEpoll =
      (s.pairs.filter (· ≠ p)).filter (·.worker = v) := by
    rw [← filter_closed (fun q => Or.inr rfl) hs.distinct hp v, ← h.upstream]
    rfl
  have hopened : ∀ q ∈ k.phase.events, q ∈ s.pairs.filter (· ≠ p) ∧ q.worker = v := by
    intro q hq
    refine ⟨List.mem_filter.mpr ⟨(h.opened q hq).1, ?_⟩, (h.opened q hq).2⟩
    exact decide_eq_true fun he => hev (he ▸ hq)
  have hcount := countP_filter_ne (P := fun q : Proxied => decide (q.worker = v)) hs.nodup hp
  rw [← h.count] at hcount
  split
  · next hv =>
      refine ⟨hclient, hupstream, ?_, h.nodup, hopened⟩
      simp only [hv, decide_true, ↓reduceIte] at hcount
      have hpos : 1 ≤ k.connectionN := by
        rw [UInt64.le_iff_toNat_le, UInt64.toNat_one]
        omega
      have hsub := UInt64.toNat_sub_of_le _ _ hpos
      rw [UInt64.toNat_one] at hsub
      exact hsub.trans (by omega)
  · next hv =>
      refine ⟨hclient, hupstream, ?_, h.nodup, hopened⟩
      simp only [hv, decide_false, Bool.false_eq_true, ↓reduceIte, Nat.add_zero] at hcount
      exact hcount.symm

theorem Sys.Sound.teardown (h : s.Sound) (hp : p ∈ s.pairs) (hw : p.worker = w)
    (hev : ∀ k, s.workers[w]? = some k → p ∉ k.phase.events) : (s.teardown w p).Sound := by
  have hperm : ((s.pairs.filter (· ≠ p)).map Proxied.id ++ p.id :: s.torn).Perm
      (s.pairs.map Proxied.id ++ s.torn) :=
    List.perm_middle.trans (((perm_cons_filter_ne h.nodup hp).map Proxied.id).append_right _)
  refine ⟨fds_sublist h.distinct List.filter_sublist, hperm.nodup_iff.mpr h.ids,
    fun i hi => h.below i (hperm.mem_iff.mp hi), ?_⟩
  intro v k hk
  obtain ⟨y, hy, rfl⟩ := getElem?_modify_eq_some hk
  rw [List.map_map, List.getElem?_map] at hy
  obtain ⟨x, hx, rfl⟩ := Option.map_eq_some_iff.mp hy
  have hown := h.owns v x hx
  subst hw
  refine hown.teardown h hp fun hmem => ?_
  -- an event of another worker is one of another pair
  obtain rfl := (hown.opened p hmem).2
  exact hev x hx hmem

theorem Sys.Sound.take (h : s.Sound) {before phase : Phase} (hphase : s.phase w = some before)
    (hev : before.events = p :: phase.events) : (s.goto w phase).Sound ∧ p ∉ phase.events := by
  obtain ⟨k, hk, rfl⟩ := Sys.phase_eq_some hphase
  have hown := h.owns w k hk
  have hnodup := hown.nodup
  rw [hev, List.nodup_cons] at hnodup
  refine ⟨h.goto hnodup.2 fun q hq => hown.opened q ?_, hnodup.1⟩
  rw [hev]
  exact List.mem_cons_of_mem _ hq

theorem Sys.Sound.handled (h : s.Sound) {before phase : Phase} (hphase : s.phase w = some before)
    (hev : before.events = p :: phase.events) (ending : Ending) (f : Srv → Srv) :
    (s.handled w p phase ending f).Sound := by
  obtain ⟨hp, hw⟩ := h.event hphase (hev ▸ List.mem_cons_self)
  obtain ⟨hgoto, hnot⟩ := h.take hphase hev
  unfold Sys.handled
  simp only
  split
  · refine (hgoto.teardown hp hw fun k hk => ?_).withSrvs _
    obtain ⟨x, hx, rfl⟩ := getElem?_modify_eq_some hk
    rw [if_pos rfl]
    exact hnot
  · exact hgoto.withSrvs _

theorem Sys.Sound.batch (h : s.Sound) {k : Worker} (hk : s.workers[w]? = some k) {phase : Phase}
    (hbatch : Batch k.clientEpoll phase.events ∨ Batch k.upstreamEpoll phase.events) :
    (s.goto w phase).Sound := by
  have hown := h.owns w k hk
  rw [hown.client, hown.upstream, or_self] at hbatch
  obtain ⟨hnodup, hmem, -⟩ := hbatch
  exact h.goto hnodup fun p hp => by simpa using hmem p hp

end Umicat.Proxy
