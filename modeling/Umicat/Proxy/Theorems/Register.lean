import Umicat.Base.Run
import Umicat.Proxy.Lemmas.Step
import Umicat.Proxy.Register

/-!
# Registration is not all or nothing

A registration that fails leaves the pair open and counted. What is left of it goes away only with
the events of the same round.
-/

namespace Umicat.Proxy

open Umicat.Base
open Umicat.Relay
open Umicat.Upstream

/-! ## Entries of the epoll sets -/

/-- Every entry of an epoll set is an open pair. -/
def Worker.Watches (pairs : List Proxied) (k : Worker) : Prop :=
  (∀ q ∈ k.clientEpoll, q ∈ pairs) ∧ ∀ q ∈ k.upstreamEpoll, q ∈ pairs

def Sys.Watched (s : Sys) : Prop := ∀ k ∈ s.workers, k.Watches s.pairs

variable {ring : List Point} {s s' s'' : Sys} {w i : Nat} {p : Proxied}

theorem watched_init (srvs : List Srv) (n : Nat) : (Sys.init srvs n).Watched := by
  intro k hk
  rw [(List.mem_replicate.mp hk).2]
  exact ⟨nofun, nofun⟩

theorem Sys.Watched.goto (h : s.Watched) (phase : Phase) : (s.goto w phase).Watched :=
  forall_mem_modify h fun _ _ hk => hk

theorem Worker.Watches.mono {pairs : List Proxied} {k : Worker} (h : k.Watches pairs) (p : Proxied) :
    k.Watches (p :: pairs) :=
  ⟨fun q hq => List.mem_cons_of_mem _ (h.1 q hq), fun q hq => List.mem_cons_of_mem _ (h.2 q hq)⟩

theorem Worker.Watches.startProxy {pairs : List Proxied} {k : Worker} (h : k.Watches pairs)
    (first second : Bool) (p : Proxied) :
    (k.startProxy first second p).Watches (p :: pairs) := by
  have hmono := h.mono p
  have hclient : ∀ q ∈ p :: k.clientEpoll, q ∈ p :: pairs :=
    List.forall_mem_cons.mpr ⟨List.mem_cons_self, hmono.1⟩
  have hupstream : ∀ q ∈ p :: k.upstreamEpoll, q ∈ p :: pairs :=
    List.forall_mem_cons.mpr ⟨List.mem_cons_self, hmono.2⟩
  cases first with
  | false => exact hmono
  | true =>
      cases second with
      | false => exact ⟨hclient, hmono.2⟩
      | true => exact ⟨hclient, hupstream⟩

theorem Sys.Watched.paired (h : s.Watched) (client upstream : Fd) (now : UInt64)
    (first second : Bool) : (s.paired w i client upstream now first second).Watched := by
  intro k hk
  obtain ⟨v, hv⟩ := List.mem_iff_getElem?.mp hk
  obtain ⟨x, hx, rfl⟩ := getElem?_modify_eq_some hv
  have hwatches := h x (List.mem_of_getElem? hx)
  split
  · exact hwatches.startProxy first second _
  · exact hwatches.mono _

theorem Sys.Watched.teardown (h : s.Watched) (w : Nat) (p : Proxied) : (s.teardown w p).Watched := by
  apply forall_mem_modify
  · intro k hk
    rw [List.map_map] at hk
    obtain ⟨x, hx, rfl⟩ := List.mem_map.mp hk
    obtain ⟨hclient, hupstream⟩ := h x hx
    constructor
    · intro q hq
      simp only [Function.comp, Worker.close, List.mem_filter, decide_eq_true_eq] at hq
      exact List.mem_filter.mpr ⟨hclient q hq.1.1, decide_eq_true fun he => hq.1.2 (he ▸ rfl)⟩
    · intro q hq
      simp only [Function.comp, Worker.close, List.mem_filter, decide_eq_true_eq] at hq
      exact List.mem_filter.mpr ⟨hupstream q hq.1.1, decide_eq_true fun he => hq.2 (he ▸ rfl)⟩
  · intro _ _ hk
    exact hk

theorem Sys.Watched.moves {a : Action} (h : s.Watched) (hm : s.Moves ring a s') : s'.Watched := by
  cases hm with
  | select w c hw => exact h.goto _
  | connected w i hw hfresh =>
      rw [← paired_eq_connected]
      exact h.paired _ _ _ true true
  | refused w i hw hret => exact h.goto _
  | goto hk hbefore hafter hbatch => exact h.goto _
  | handled hw hbefore hafter hev hf =>
      unfold Sys.handled
      simp only
      split
      · exact (h.goto _).teardown _ _
      · exact h.goto _
  | probe hf => exact h

theorem Sys.Watched.turn {t : Turn} (h : s.Watched) (ht : s.turn ring t = some s') : s'.Watched := by
  cases t with
  | act a => exact h.moves (Sys.moves_of_step ht)
  | start w client upstream now first second =>
      simp only [Sys.turn] at ht
      split at ht
      · split at ht
        · cases ht
          exact h.paired _ _ _ _ _
        · cases ht
      · cases ht

/-! ## What the events of a round take away -/

structure Worker.Sheds (gone : List Proxied) (k k' : Worker) : Prop where
  client : ∀ q ∈ k'.clientEpoll, q ∈ k.clientEpoll ∧ q.client ∉ fds gone
  upstream : ∀ q ∈ k'.upstreamEpoll, q ∈ k.upstreamEpoll ∧ q.upstream ∉ fds gone

/-- Worker `w` tore down the pairs `gone` on the way from `s` to `s'`. -/
structure Sys.Sheds (w : Nat) (gone : List Proxied) (s s' : Sys) : Prop where
  pairs : ∀ q, q ∈ s'.pairs ↔ q ∈ s.pairs ∧ q ∉ gone
  sets : ∀ (v : Nat) (k' : Worker), s'.workers[v]? = some k' →
    ∃ k, s.workers[v]? = some k ∧ k.Sheds gone k'
  count : s'.workers[w]?.map Worker.connectionN =
    (s.workers[w]?.map Worker.connectionN).map (· - UInt64.ofNat gone.length)
  srvs : ∀ j : Nat, s'.srvs[j]?.map Srv.connectionN =
    (s.srvs[j]?.map Srv.connectionN).map (· - UInt64.ofNat (gone.countP (·.srv = j)))

theorem Worker.Sheds.trans {gone gone' : List Proxied} {k k' k'' : Worker} (h : k.Sheds gone k')
    (h' : k'.Sheds gone' k'') : k.Sheds (gone ++ gone') k'' := by
  have hfds : fds (gone ++ gone') = fds gone ++ fds gone' := List.flatMap_append
  constructor
  · intro q hq
    obtain ⟨hq', hnot'⟩ := h'.client q hq
    obtain ⟨hq, hnot⟩ := h.client q hq'
    rw [hfds, List.mem_append, not_or]
    exact ⟨hq, hnot, hnot'⟩
  · intro q hq
    obtain ⟨hq', hnot'⟩ := h'.upstream q hq
    obtain ⟨hq, hnot⟩ := h.upstream q hq'
    rw [hfds, List.mem_append, not_or]
    exact ⟨hq, hnot, hnot'⟩

theorem map_sub_sub (o : Option UInt64) (m n : Nat) :
    (o.map (· - UInt64.ofNat m)).map (· - UInt64.ofNat n) = o.map (· - UInt64.ofNat (m + n)) := by
  have hsub (a b c : UInt64) : a - b - c = a - (b + c) := by grind
  cases o with
  | none => rfl
  | some x => simp only [Option.map_some, UInt64.ofNat_add, hsub]

theorem Sys.Sheds.trans {gone gone' : List Proxied} (h : s.Sheds w gone s')
    (h' : s'.Sheds w gone' s'') : s.Sheds w (gone ++ gone') s'' where
  pairs := by
    intro q
    rw [h'.pairs, h.pairs, List.mem_append, not_or, and_assoc]
  sets := by
    intro v k'' hk''
    obtain ⟨k', hk', hs'⟩ := h'.sets v k'' hk''
    obtain ⟨k, hk, hs⟩ := h.sets v k' hk'
    exact ⟨k, hk, hs.trans hs'⟩
  count := by
    rw [h'.count, h.count, map_sub_sub, List.length_append]
  srvs := by
    intro j
    rw [h'.srvs, h.srvs, map_sub_sub, List.countP_append]

theorem Worker.sheds_nil {k k' : Worker} (hclient : k'.clientEpoll = k.clientEpoll)
    (hupstream : k'.upstreamEpoll = k.upstreamEpoll) : k.Sheds [] k' :=
  ⟨fun _ hq => ⟨hclient ▸ hq, nofun⟩, fun _ hq => ⟨hupstream ▸ hq, nofun⟩⟩

theorem map_sub_zero (o : Option UInt64) : o.map (· - UInt64.ofNat 0) = o := by
  cases o <;> simp

theorem Sys.sheds_goto (s : Sys) (w : Nat) (phase : Phase) : s.Sheds w [] (s.goto w phase) where
  pairs := by
    intro q
    simp [Sys.goto]
  sets := by
    intro v k' hk'
    obtain ⟨k, hk, rfl⟩ := getElem?_modify_eq_some hk'
    refine ⟨k, hk, ?_⟩
    split <;> exact Worker.sheds_nil rfl rfl
  count := by
    rw [List.length_nil, map_sub_zero, ← List.getElem?_map, ← List.getElem?_map]
    have hcount : ∀ k : Worker, (k.goto phase).connectionN = k.connectionN := fun _ => rfl
    exact congrArg (·[w]?) (map_modify_of_eq hcount s.workers w)
  srvs := fun j => (map_sub_zero _).symm

theorem Worker.sheds_close (p : Proxied) (k : Worker) :
    k.Sheds [p] ((k.close p.client).close p.upstream) := by
  constructor
  · intro q hq
    simp only [Worker.close, List.mem_filter, decide_eq_true_eq] at hq
    exact ⟨hq.1.1, by simp [fds, hq.1.2, hq.2]⟩
  · intro q hq
    simp only [Worker.close, List.mem_filter, decide_eq_true_eq] at hq
    exact ⟨hq.1.1, by simp [fds, hq.1.2, hq.2]⟩

theorem Sys.sheds_teardown (s : Sys) (w : Nat) (p : Proxied) {f : Srv → Srv}
    (hf : ∀ srv, (f srv).connectionN = srv.connectionN - 1) :
    s.Sheds w [p] ((s.teardown w p).withSrvs (s.srvs.modify p.srv f)) where
  pairs := by
    intro q
    simp [Sys.teardown, Sys.withSrvs]
  sets := by
    intro v k' hk'
    obtain ⟨y, hy, rfl⟩ := getElem?_modify_eq_some hk'
    rw [List.map_map, List.getElem?_map] at hy
    obtain ⟨k, hk, rfl⟩ := Option.map_eq_some_iff.mp hy
    refine ⟨k, hk, ?_⟩
    have hclose := k.sheds_close p
    split
    · exact ⟨hclose.client, hclose.upstream⟩
    · exact hclose
  count := by
    simp only [Sys.teardown, Sys.withSrvs, List.getElem?_modify_eq, List.map_map, List.getElem?_map]
    cases s.workers[w]? with
    | none => rfl
    | some k => rfl
  srvs := by
    intro j
    simp only [Sys.withSrvs, List.getElem?_modify]
    cases s.srvs[j]? with
    | none => rfl
    | some srv =>
        by_cases hj : p.srv = j
        · simp [hj, hf]
        · simp [hj]

theorem Sys.sheds_handled (s : Sys) (w : Nat) (p : Proxied) (phase : Phase) (ending : Ending)
    {f : Srv → Srv} (hf : ∀ srv, (f srv).connectionN =
      if ending = .closed then srv.connectionN - 1 else srv.connectionN) :
    s.Sheds w (if ending = .closed then [p] else []) (s.handled w p phase ending f) := by
  have hgoto := s.sheds_goto w phase
  unfold Sys.handled
  simp only
  split
  · next hclosed =>
      simp only [hclosed, ↓reduceIte] at hf
      exact hgoto.trans ((s.goto w phase).sheds_teardown w p hf)
  · next hclosed =>
      simp only [hclosed, ↓reduceIte] at hf
      refine ⟨hgoto.pairs, hgoto.sets, hgoto.count, fun j => ?_⟩
      rw [← hgoto.srvs j, ← List.getElem?_map, ← List.getElem?_map]
      exact congrArg (·[j]?) (map_modify_of_eq hf s.srvs p.srv)

theorem Sys.phase_goto {before : Phase} (h : s.phase w = some before) (phase : Phase) :
    (s.goto w phase).phase w = some phase := by
  obtain ⟨k, hk, -⟩ := Sys.phase_eq_some h
  simp [Sys.phase, Sys.goto, hk, Worker.goto]

theorem Sys.phase_handled {before : Phase} (h : s.phase w = some before) (p : Proxied)
    (phase : Phase) (ending : Ending) (f : Srv → Srv) :
    (s.handled w p phase ending f).phase w = some phase := by
  obtain ⟨k, hk, -⟩ := Sys.phase_eq_some h
  unfold Sys.handled
  simp only
  split
  · simp [Sys.phase, Sys.goto, Sys.teardown, Sys.withSrvs, hk, Worker.goto, Worker.close,
      Worker.countDown]
  · simp [Sys.phase, Sys.goto, Sys.withSrvs, hk, Worker.goto]

/-! ## Rounds -/

theorem Sys.run_cons {a : Action} {as : List Action} (h : s.run ring (a :: as) = some s') :
    ∃ t, s.step ring a = some t ∧ t.run ring as = some s' := by
  rw [Sys.run, List.foldlM_cons] at h
  exact Option.bind_eq_some_iff.mp h

theorem Sys.run_append {as bs : List Action} (h : s.run ring (as ++ bs) = some s') :
    ∃ t, s.run ring as = some t ∧ t.run ring bs = some s' := by
  rw [Sys.run, List.foldlM_append] at h
  exact Option.bind_eq_some_iff.mp h

theorem ended_cons (e : SocketEvent) (es : List SocketEvent) :
    ended (e :: es) = (if e.ending = .closed then [e.pair] else []) ++ ended es := by
  by_cases he : e.ending = .closed <;> simp [ended, he]

theorem ended_append (es es' : List SocketEvent) : ended (es ++ es') = ended es ++ ended es' := by
  simp [ended]

theorem ended_subset (es : List SocketEvent) : ended es ⊆ es.map SocketEvent.pair :=
  (List.filter_sublist.map SocketEvent.pair).subset

theorem length_ended_le (es : List SocketEvent) : (ended es).length ≤ es.length := by
  rw [ended, List.length_map]
  exact List.length_filter_le _ _

theorem Sys.sheds_refl (s : Sys) (w : Nat) : s.Sheds w [] s :=
  ⟨by simp, fun v k hk => ⟨k, hk, Worker.sheds_nil rfl rfl⟩, (map_sub_zero _).symm,
    fun _ => (map_sub_zero _).symm⟩

/-- The events of a batch are handled one after the other. -/
theorem run_events {act : SocketEvent → Action} {batch : List Proxied → Phase}
    (hstep : ∀ (s s' : Sys) (e : SocketEvent) (evs : List Proxied),
      s.phase w = some (batch (e.pair :: evs)) → s.step ring (act e) = some s' →
        ∃ f : Srv → Srv, (∀ srv, (f srv).connectionN =
            if e.ending = .closed then srv.connectionN - 1 else srv.connectionN) ∧
          s' = s.handled w e.pair (batch evs) e.ending f)
    {es : List SocketEvent} (hw : s.phase w = some (batch (es.map SocketEvent.pair)))
    (h : s.run ring (es.map act) = some s') :
    s'.phase w = some (batch []) ∧ s.Sheds w (ended es) s' := by
  induction es generalizing s with
  | nil =>
      cases h
      exact ⟨hw, Sys.sheds_refl _ w⟩
  | cons e es ih =>
      obtain ⟨t, ht, hrest⟩ := Sys.run_cons h
      obtain ⟨f, hf, rfl⟩ := hstep s t e _ hw ht
      obtain ⟨hphase, hsheds⟩ := ih (Sys.phase_handled hw _ _ _ f) hrest
      rw [ended_cons]
      exact ⟨hphase, (s.sheds_handled w e.pair _ e.ending hf).trans hsheds⟩

theorem step_client (s s' : Sys) (e : SocketEvent) (evs : List Proxied)
    (hw : s.phase w = some (.client (e.pair :: evs))) (h : s.step ring (e.client w) = some s') :
    ∃ f : Srv → Srv, (∀ srv, (f srv).connectionN =
        if e.ending = .closed then srv.connectionN - 1 else srv.connectionN) ∧
      s' = s.handled w e.pair (.client evs) e.ending f := by
  simp only [SocketEvent.client, Sys.step, hw] at h
  split at h
  · cases h
  · cases h
    exact ⟨_, fun srv => connectionN_clientEvent _ srv _ _ _, rfl⟩

theorem step_upstream (s s' : Sys) (e : SocketEvent) (evs : List Proxied)
    (hw : s.phase w = some (.upstream (e.pair :: evs)))
    (h : s.step ring (e.upstream w) = some s') :
    ∃ f : Srv → Srv, (∀ srv, (f srv).connectionN =
        if e.ending = .closed then srv.connectionN - 1 else srv.connectionN) ∧
      s' = s.handled w e.pair (.upstream evs) e.ending f := by
  simp only [SocketEvent.upstream, Sys.step, hw] at h
  split at h
  · cases h
  · cases h
    exact ⟨_, fun srv => connectionN_disconnect _ srv, rfl⟩

/-- A round tears down the pairs of the events that find an end. Its events are those of entries of
the worker's epoll sets. -/
theorem round_sheds {cs us : List SocketEvent}
    (h : s.run ring (processEvents w cs us) = some s') :
    s.Sheds w (ended (cs ++ us)) s' ∧ (ended (cs ++ us)).length ≤ 2 * maxEvents ∧
      ∃ k, s.workers[w]? = some k ∧
        ∀ q ∈ ended (cs ++ us), q ∈ k.clientEpoll ∨ q ∈ k.upstreamEpoll := by
  obtain ⟨t₁, h₁, hrest₁⟩ := Sys.run_cons h
  obtain ⟨t₂, h₂, hrest₂⟩ := Sys.run_append hrest₁
  obtain ⟨t₃, h₃, hrest₃⟩ := Sys.run_cons hrest₂
  obtain ⟨t₄, h₄, hagain⟩ := Sys.run_append hrest₃
  obtain ⟨k, hk, hphase, hbatch, rfl⟩ := step_clientWait h₁
  have hw : s.phase w = some .clientWait := by rw [Sys.phase, hk, Option.map_some, hphase]
  obtain ⟨hphase₂, hsheds₂⟩ := run_events step_client (Sys.phase_goto hw _) h₂
  obtain ⟨k₂, hk₂, -, hbatch₂, rfl⟩ := step_upstreamWait h₃
  obtain ⟨hphase₄, hsheds₄⟩ := run_events step_upstream (Sys.phase_goto hphase₂ _) h₄
  have hlast : t₄.Sheds w [] s' := by
    obtain ⟨t, ht, hnil⟩ := Sys.run_cons hagain
    cases hnil
    simp only [Sys.step, hphase₄, ↓reduceIte, Option.some.injEq] at ht
    exact ht ▸ t₄.sheds_goto w .accept
  have hclient := (s.sheds_goto w (.client (cs.map SocketEvent.pair))).trans hsheds₂
  have hupstream := (t₂.sheds_goto w (.upstream (us.map SocketEvent.pair))).trans hsheds₄
  have hsheds := hclient.trans (hupstream.trans hlast)
  rw [List.nil_append, List.nil_append, List.append_nil, ← ended_append] at hsheds
  refine ⟨hsheds, ?_, k, hk, fun q hq => ?_⟩
  · have hcs := hbatch.2.2
    have hus := hbatch₂.2.2
    have hle := length_ended_le (cs ++ us)
    simp only [List.length_map, List.length_append] at hcs hus hle
    omega
  · obtain ⟨k', hk', hset⟩ := hclient.sets w k₂ hk₂
    cases hk.symm.trans hk'
    have hq := ended_subset _ hq
    rw [List.map_append, List.mem_append] at hq
    rcases hq with hq | hq
    · exact Or.inl (hbatch.2.1 q hq)
    · exact Or.inr (hset.upstream q (hbatch₂.2.1 q hq)).1

/-! ## Failed registrations -/

def Worker.registered (k : Worker) : List Fd :=
  k.clientEpoll.map Proxied.client ++ k.upstreamEpoll.map Proxied.upstream

/-- Nothing is left of a pair that worker `w` was to open to server `i` in state `s`. -/
structure Sys.Restored (s : Sys) (w i : Nat) (client upstream : Fd) (s' : Sys) : Prop where
  deregistered : ∀ k ∈ s'.workers, client ∉ k.registered ∧ upstream ∉ k.registered
  closed : client ∉ fds s'.pairs ∧ upstream ∉ fds s'.pairs
  srv : s'.srvs[i]?.map Srv.connectionN = s.srvs[i]?.map Srv.connectionN
  worker : s'.workers[w]?.map Worker.connectionN = s.workers[w]?.map Worker.connectionN

theorem Worker.Sheds.not_registered {gone : List Proxied} {k k' : Worker} (h : k.Sheds gone k')
    {fd : Fd} (hfd : fd ∈ fds gone) : fd ∉ k'.registered := by
  simp only [Worker.registered, List.mem_append, List.mem_map, not_or, not_exists, not_and]
  constructor
  · rintro q hq rfl
    exact (h.client q hq).2 hfd
  · rintro q hq rfl
    exact (h.upstream q hq).2 hfd

theorem mem_fds {fd : Fd} {pairs : List Proxied} :
    fd ∈ fds pairs ↔ ∃ q ∈ pairs, fd = q.client ∨ fd = q.upstream := by
  simp [fds]

section Failed

variable {client upstream : Fd} {now : UInt64} {first second : Bool} {k : Worker}

theorem connectionN_startProxy (p : Proxied) (k : Worker) :
    (k.startProxy first second p).connectionN = k.connectionN + 1 := by
  cases first <;> cases second <;> rfl

theorem workers_paired (hk : s.workers[w]? = some k) :
    (s.paired w i client upstream now first second).workers[w]? =
      some (k.startProxy first second ⟨s.nextId, w, client, upstream, i⟩) := by
  simp [Sys.paired, hk]

theorem srvs_paired (hfresh : s.Fresh client upstream) :
    (s.paired w i client upstream now first second).srvs[i]?.map Srv.connectionN =
      (s.srvs[i]?.map Srv.connectionN).map (· + 1) := by
  simp only [Sys.paired, List.getElem?_modify_eq]
  cases s.srvs[i]? with
  | none => rfl
  | some srv => exact congrArg some (Srv.connectionN_connected hfresh.fd_pos now srv)

/-- A pair whose first registration failed has no events. -/
theorem first_of_watched (h : s.Watched) (hk : s.workers[w]? = some k)
    (hfresh : s.Fresh client upstream)
    (hp : ⟨s.nextId, w, client, upstream, i⟩ ∈
        (k.startProxy first second ⟨s.nextId, w, client, upstream, i⟩).clientEpoll ∨
      ⟨s.nextId, w, client, upstream, i⟩ ∈
        (k.startProxy first second ⟨s.nextId, w, client, upstream, i⟩).upstreamEpoll) :
    first = true := by
  cases first with
  | true => rfl
  | false =>
      have hwatches := h k (List.mem_of_getElem? hk)
      have hopen : ⟨s.nextId, w, client, upstream, i⟩ ∈ s.pairs := hp.elim (hwatches.1 _) (hwatches.2 _)
      exact absurd (mem_fds.mpr ⟨_, hopen, Or.inl rfl⟩) hfresh.2.2.1

/-- The descriptors that are open behind a round that took the new pair away were open before. -/
theorem fds_of_sheds {fd : Fd}
    (h : (s.paired w i client upstream now first second).Sheds w
      [⟨s.nextId, w, client, upstream, i⟩] s') (hfd : fd ∈ fds s'.pairs) : fd ∈ fds s.pairs := by
  obtain ⟨q, hq, hfd⟩ := mem_fds.mp hfd
  obtain ⟨hq, hne⟩ := (h.pairs q).mp hq
  rcases List.mem_cons.mp hq with rfl | hq
  · exact absurd (List.mem_singleton_self _) hne
  · exact mem_fds.mpr ⟨q, hq, hfd⟩

theorem restored_of_sheds (hk : s.workers[w]? = some k) (hfresh : s.Fresh client upstream)
    (h : (s.paired w i client upstream now first second).Sheds w
      [⟨s.nextId, w, client, upstream, i⟩] s') :
    s.Restored w i client upstream s' where
  deregistered := by
    intro k' hk'
    obtain ⟨v, hv⟩ := List.mem_iff_getElem?.mp hk'
    obtain ⟨x, -, hset⟩ := h.sets v k' hv
    exact ⟨hset.not_registered (by simp [fds]), hset.not_registered (by simp [fds])⟩
  closed := ⟨fun hfd => hfresh.2.2.1 (fds_of_sheds h hfd), fun hfd => hfresh.2.2.2 (fds_of_sheds h hfd)⟩
  srv := by
    rw [h.srvs, srvs_paired hfresh]
    cases s.srvs[i]? with
    | none => rfl
    | some srv => simp
  worker := by
    rw [h.count, workers_paired hk, hk, Option.map_some, connectionN_startProxy]
    simp

theorem length_eq_one {n : Nat} {c : UInt64} (hn : n ≤ 2 * maxEvents)
    (h : c + 1 - UInt64.ofNat n = c) : n = 1 := by
  have hone : UInt64.ofNat n = 1 := by grind
  have hnat := congrArg UInt64.toNat hone
  rw [UInt64.toNat_ofNat', Nat.mod_eq_of_lt (by unfold maxEvents at hn; omega)] at hnat
  exact hnat

/-- A round takes all of a new pair away and no other pair, or it leaves something of it. -/
theorem restored_iff (hwatched : s.Watched) (hw : s.phase w = some (.connecting i))
    (hfresh : s.Fresh client upstream) {cs us : List SocketEvent}
    (hround : (s.paired w i client upstream now first second).run ring (processEvents w cs us) =
      some s') :
    s.Restored w i client upstream s' ↔
      first = true ∧ ended (cs ++ us) = [⟨s.nextId, w, client, upstream, i⟩] := by
  obtain ⟨k, hk, -⟩ := Sys.phase_eq_some hw
  obtain ⟨hsheds, hlen, k', hk', hmem⟩ := round_sheds hround
  cases (workers_paired hk).symm.trans hk'
  constructor
  · intro h
    have hgone : ⟨s.nextId, w, client, upstream, i⟩ ∈ ended (cs ++ us) := by
      by_contra hnot
      have hleft := (hsheds.pairs _).mpr ⟨List.mem_cons_self, hnot⟩
      exact h.closed.1 (mem_fds.mpr ⟨_, hleft, Or.inl rfl⟩)
    have hcount := hsheds.count.symm.trans h.worker
    rw [workers_paired hk, hk, Option.map_some, Option.map_some, Option.map_some,
      connectionN_startProxy] at hcount
    have hone := length_eq_one hlen (Option.some.inj hcount)
    obtain ⟨q, hq⟩ := List.length_eq_one_iff.mp hone
    refine ⟨first_of_watched hwatched hk hfresh (hmem _ hgone), ?_⟩
    rw [hq] at hgone ⊢
    rw [List.mem_singleton.mp hgone]
  · rintro ⟨-, hended⟩
    rw [hended] at hsheds
    exact restored_of_sheds hk hfresh hsheds

end Failed

/-- In every state that the workers reach, failed registrations included: a worker that connects and
registers a pair undoes a failed registration by the end of the round just when the first call of
`epoll_ctl` did not fail, the end of the pair is found in the round, and no other pair ends in it. -/
theorem registration_undone_iff (srvs : List Srv) (n : Nat) {ts : List Turn}
    (hreach : (Sys.init srvs n).turns ring ts = some s) (hw : s.phase w = some (.connecting i))
    {client upstream : Fd} (hfresh : s.Fresh client upstream) (now : UInt64) (first second : Bool)
    (cs us : List SocketEvent)
    (hround : (s.paired w i client upstream now first second).run ring (processEvents w cs us) =
      some s') :
    (¬(first = true ∧ second = true) → s.Restored w i client upstream s') ↔
      first = true ∧
        (second = true ∨ ended (cs ++ us) = [⟨s.nextId, w, client, upstream, i⟩]) := by
  have hwatched : s.Watched :=
    invariant_foldlM (fun _ _ _ _ hs ht => hs.turn ht) (watched_init srvs n) hreach
  rw [restored_iff hwatched hw hfresh hround]
  cases first <;> cases second <;> simp

/-- The second call fails, and the client is gone already. -/
theorem registration_undone_client_gone :
    let c : Conf := ⟨[49], 80, 1, 1, 10, 1, 0, none⟩
    let p : Proxied := ⟨0, 0, 3, 4, 0⟩
    let ts : List Turn := [.act (.select 0 (.roundRobin 5))]
    let cs : List SocketEvent := [⟨p, 6, fun _ => 0, [.eof], []⟩]
    ∃ s s', (Sys.init (confParse (fun _ => default) [c]) 1).turns [] ts = some s ∧
      (s.paired 0 0 3 4 5 true false).run [] (processEvents 0 cs []) = some s' ∧
      s.Restored 0 0 3 4 s' := by
  intro c p ts cs
  have hreach : ((Sys.init (confParse (fun _ => default) [c]) 1).turns [] ts).any (fun s =>
      s.phase 0 = some (.connecting 0) ∧ s.Fresh 3 4 ∧ s.nextId = 0 ∧
        ((s.paired 0 0 3 4 5 true false).run [] (processEvents 0 cs [])).isSome ∧
        ended (cs ++ []) = [p]) = true := by decide +kernel
  obtain ⟨s, hs, hfacts⟩ := (Option.any_eq_true _ _).mp hreach
  obtain ⟨hw, hfresh, hid, hround, hended⟩ := of_decide_eq_true hfacts
  obtain ⟨s', hs'⟩ := Option.isSome_iff_exists.mp hround
  refine ⟨s, s', hs, hs', ?_⟩
  refine (registration_undone_iff _ 1 hs hw hfresh 5 true false cs [] hs').mpr ⟨rfl, Or.inr ?_⟩
    (by simp)
  rw [hid]
  exact hended

/-- The second call fails and nothing else happens in the round: the client's descriptor stays
open. -/
theorem registration_left_half :
    let c : Conf := ⟨[49], 80, 1, 1, 10, 1, 0, none⟩
    let ts : List Turn := [.act (.select 0 (.roundRobin 5))]
    ∃ s s', (Sys.init (confParse (fun _ => default) [c]) 1).turns [] ts = some s ∧
      s.phase 0 = some (.connecting 0) ∧ s.Fresh 3 4 ∧
      (s.paired 0 0 3 4 5 true false).run [] (processEvents 0 [] []) = some s' ∧
      ¬ s.Restored 0 0 3 4 s' := by
  intro c ts
  have hreach : ((Sys.init (confParse (fun _ => default) [c]) 1).turns [] ts).any (fun s =>
      s.phase 0 = some (.connecting 0) ∧ s.Fresh 3 4 ∧
        ((s.paired 0 0 3 4 5 true false).run [] (processEvents 0 [] [])).any
          (fun s' => 3 ∈ fds s'.pairs)) = true := by decide +kernel
  obtain ⟨s, hs, hfacts⟩ := (Option.any_eq_true _ _).mp hreach
  obtain ⟨hw, hfresh, hround⟩ := of_decide_eq_true hfacts
  obtain ⟨s', hs', hopen⟩ := (Option.any_eq_true _ _).mp hround
  exact ⟨s, s', hs, hw, hfresh, hs', fun h => h.closed.1 (of_decide_eq_true hopen)⟩

end Umicat.Proxy
