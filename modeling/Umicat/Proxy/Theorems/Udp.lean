import Mathlib.Data.List.Flatten
import Umicat.Proxy.Lemmas.Count
import Umicat.Proxy.Udp

/-!
# Sessions of the UDP proxy

Whatever the workers do and in whatever order: no socket and no pool is given back twice or used behind
its end, but for the two descriptors that a teardown names once it has closed them, the servers are
counted at the number of their open sessions, and a worker counts its own sessions down and never up.
-/

namespace Umicat.Proxy

open Umicat.Base
open Umicat.Relay
open Umicat.Upstream

variable {ring : List Point} {u u' : Udp} {a : UdpAction} {w cli : Nat} {k : UdpWorker}
  {s : Session} {phase : UdpPhase}

/-! ## The invariant -/

structure UdpWorker.Owns (sessions : List Session) (w : Nat) (k : UdpWorker) : Prop where
  epoll : ∀ s ∈ k.upstreamEpoll, s ∈ sessions ∧ s.worker = w
  evs : ∀ s ∈ k.phase.evs, s ∈ sessions ∧ s.worker = w
  nodup : k.phase.evs.Nodup
  count : k.connectionN = 0 - UInt64.ofNat k.torn

structure Udp.Sound (u : Udp) : Prop where
  nodup : u.resources.Nodup
  owns : ∀ (w : Nat) (k : UdpWorker), u.workers[w]? = some k → k.Owns u.sessions w

/-- What a step has to give. -/
structure Udp.Goes (u : Udp) (c : Option Choice) (es : List (Entry Resource)) (u' : Udp) : Prop where
  books : Books u.resources es u'.resources
  owns : ∀ (w : Nat) (k : UdpWorker), u'.workers[w]? = some k → k.Owns u'.sessions w
  counts : (c.all fun c => !c.isLeastConn) → Counts u.srvs u.openTo → Counts u'.srvs u'.openTo

theorem udp_resources_init (srvs : List Srv) (n : Nat) : (Udp.init srvs n).resources = [] := by
  have hheld : ((Udp.init srvs n).workers.flatMap fun k => k.phase.held) = [] := by
    refine List.flatMap_eq_nil_iff.mpr fun k hk => ?_
    rw [(List.mem_replicate.mp hk).2]
    rfl
  rw [Udp.resources, hheld]
  rfl

theorem udp_sound_init (srvs : List Srv) (n : Nat) : (Udp.init srvs n).Sound := by
  constructor
  · rw [udp_resources_init]
    exact List.nodup_nil
  · intro w k hk
    obtain rfl : k = ⟨0, 0, [], .receive⟩ := by
      simp only [Udp.init, List.getElem?_replicate] at hk
      split at hk
      · exact (Option.some.inj hk).symm
      · cases hk
    exact ⟨nofun, nofun, List.nodup_nil, rfl⟩

theorem udp_phase_eq_some (h : u.phase w = some phase) :
    ∃ k, u.workers[w]? = some k ∧ k.phase = phase :=
  Option.map_eq_some_iff.mp h

/-! ## Resources -/

/-- One of the workers, and what the others hold. -/
theorem perm_workers {workers : List UdpWorker} (hk : workers[w]? = some k)
    (f : UdpWorker → UdpWorker) :
    ∃ rest, (workers.flatMap fun k => k.phase.held).Perm (k.phase.held ++ rest) ∧
      ((workers.modify w f).flatMap fun k => k.phase.held).Perm ((f k).phase.held ++ rest) := by
  induction workers generalizing w with
  | nil => simp at hk
  | cons k' workers ih =>
      cases w with
      | zero =>
          cases Option.some.inj hk
          exact ⟨_, .refl _, .refl _⟩
      | succ w =>
          obtain ⟨rest, hbefore, hafter⟩ := ih (w := w) (by simpa using hk)
          refine ⟨k'.phase.held ++ rest, ?_, ?_⟩
          · exact (hbefore.append_left _).trans (List.perm_append_comm_assoc _ _ _)
          · exact (hafter.append_left _).trans (List.perm_append_comm_assoc _ _ _)

/-- A step of worker `w` that changes what it holds and the sessions. -/
theorem perm_resources (u' : Udp) (hk : u.workers[w]? = some k) {f : UdpWorker → UdpWorker}
    (hworkers : (u'.workers.map UdpWorker.phase) = (u.workers.modify w f).map UdpWorker.phase) :
    ∃ rest, u.resources.Perm (k.phase.held ++ (u.sessions.flatMap Session.resources ++ rest)) ∧
      u'.resources.Perm ((f k).phase.held ++ (u'.sessions.flatMap Session.resources ++ rest)) := by
  obtain ⟨rest, hbefore, hafter⟩ := perm_workers hk f
  have hmap (ws : List UdpWorker) : (ws.flatMap fun k => k.phase.held) =
      (ws.map UdpWorker.phase).flatMap UdpPhase.held := by
    rw [List.flatMap_map]
  rw [hmap (u.workers.modify w f), ← hworkers, ← hmap] at hafter
  refine ⟨rest, ?_, ?_⟩
  · refine (hbefore.append_right _).trans ?_
    rw [List.append_assoc]
    exact List.perm_append_comm.append_left _
  · refine (hafter.append_right _).trans ?_
    rw [List.append_assoc]
    exact List.perm_append_comm.append_left _

/-! ## Steps that leave the sessions as they are -/

theorem UdpWorker.Owns.goto {sessions : List Session} {v : Nat} (h : k.Owns sessions v)
    (hevs : ∀ s ∈ phase.evs, s ∈ sessions ∧ s.worker = v) (hnodup : phase.evs.Nodup) :
    (k.goto phase).Owns sessions v :=
  ⟨h.epoll, hevs, hnodup, h.count⟩

/-- Worker `w` goes on to `phase`. -/
theorem Udp.Sound.goto {c : Option Choice} {es : List (Entry Resource)} {srvs : List Srv}
    (h : u.Sound) (hk : u.workers[w]? = some k)
    (hbooks : ∀ rest, u.resources.Perm (k.phase.held ++ rest) →
      Books (k.phase.held ++ rest) es (phase.held ++ rest))
    (hevs : ∀ s ∈ phase.evs, s ∈ u.sessions ∧ s.worker = w) (hnodup : phase.evs.Nodup)
    (hcounts : (c.all fun c => !c.isLeastConn) → Counts u.srvs u.openTo → Counts srvs u.openTo) :
    u.Goes c es { u.goto w phase with srvs := srvs } := by
  obtain ⟨rest, hbefore, hafter⟩ :=
    perm_resources { u.goto w phase with srvs := srvs } hk rfl
  refine ⟨(hbooks _ hbefore).congr hbefore hafter.symm, ?_, hcounts⟩
  intro v k' hk'
  obtain ⟨k₀, hk₀, rfl⟩ := getElem?_modify_eq_some hk'
  split
  · next hwv =>
      subst hwv
      exact (h.owns w k₀ hk₀).goto hevs hnodup
  · exact h.owns v k₀ hk₀

/-- The process ends. -/
theorem Udp.Sound.crash {c : Option Choice} {es : List (Entry Resource)} {srvs : List Srv}
    (h : u.Sound) (hbooks : Books u.resources es u.resources)
    (hcounts : (c.all fun c => !c.isLeastConn) → Counts u.srvs u.openTo → Counts srvs u.openTo) :
    u.Goes c es (u.crash srvs) :=
  ⟨hbooks, h.owns, hcounts⟩

theorem Udp.Sound.receive (h : u.Sound) (hk : u.workers[w]? = some k) (hphase : k.phase = .receive)
    (back : Option (Fd × Nat)) :
    u.Goes none (u.calls (.receive w cli back)) (u.received w cli back) := by
  cases back with
  | none =>
      refine h.goto hk (fun rest _ => ?_) nofun List.nodup_nil fun _ hcounts => hcounts
      rw [hphase]
      exact .alloc _ _
  | some b =>
      obtain ⟨fd, backPool⟩ := b
      refine h.goto hk (fun rest _ => ?_) nofun List.nodup_nil fun _ hcounts => hcounts
      rw [hphase]
      have hbooks := ((Books.alloc rest (.pool cli)).trans (.alloc _ (.socket fd))).trans
        (.alloc _ (.pool backPool))
      have hperm := List.reverse_perm [Resource.pool cli, .socket fd, .pool backPool]
      exact hbooks.trans_perm (hperm.append_right rest)

theorem Udp.Sound.select {c : Choice} {back : Fd} {backPool : Nat} (h : u.Sound)
    (hk : u.workers[w]? = some k) (hphase : k.phase = .received cli back backPool) :
    u.Goes (some c) [.read (.pool cli)]
      (u.selected w cli back backPool (choose ring u.srvs c).2 (choose ring u.srvs c).1) := by
  have hcounts : ((some c).all fun c => !c.isLeastConn) → Counts u.srvs u.openTo →
      Counts (choose ring u.srvs c).2 u.openTo := by
    intro hc hcounts
    have hother : c.isLeastConn = false := by simpa using hc
    exact hcounts.of_map (connectionN_choose ring u.srvs hother)
  cases (choose ring u.srvs c).1 with
  | some i =>
      refine h.goto hk (fun rest _ => ?_) nofun List.nodup_nil hcounts
      rw [hphase]
      exact .read List.mem_cons_self
  | none =>
      refine h.crash (.read ?_) hcounts
      obtain ⟨rest, hbefore, -⟩ := perm_workers hk id
      refine List.mem_append_left _ (hbefore.mem_iff.mpr ?_)
      rw [hphase]
      exact List.mem_cons_self

/-! ## Sessions come and go -/

theorem UdpWorker.Owns.mono {sessions : List Session} {v : Nat} (h : k.Owns sessions v)
    (s : Session) : k.Owns (s :: sessions) v where
  epoll t ht := ⟨List.mem_cons_of_mem s (h.epoll t ht).1, (h.epoll t ht).2⟩
  evs t ht := ⟨List.mem_cons_of_mem s (h.evs t ht).1, (h.evs t ht).2⟩
  nodup := h.nodup
  count := h.count

theorem UdpWorker.Owns.connected {sessions : List Session} (h : k.Owns sessions s.worker)
    (cli : Nat) (added : Bool) :
    ((k.epollAddProxyConnectionUdp s added).goto (.serving cli)).Owns (s :: sessions) s.worker := by
  have hmono := h.mono s
  cases added with
  | false => exact ⟨hmono.epoll, nofun, List.nodup_nil, h.count⟩
  | true =>
      refine ⟨fun t ht => ?_, nofun, List.nodup_nil, h.count⟩
      rcases List.mem_cons.mp ht with rfl | ht
      · exact ⟨List.mem_cons_self, rfl⟩
      · exact hmono.epoll t ht

theorem Udp.Sound.connected {now : UInt64} {added : Bool} (h : u.Sound)
    (hk : u.workers[s.worker]? = some k) (hphase : k.phase = .connecting cli s.back s.backPool s.srv)
    (hfd : 0 < s.upstream.val) :
    u.Goes none [.alloc (.socket s.upstream), .alloc (.pool s.upstreamPool),
      .read (.socket s.upstream), .read (.pool s.upstreamPool)]
      (u.connected s.worker cli s now added) := by
  refine ⟨?_, ?_, fun _ hcounts => hcounts.up (Srv.connectionN_connected ?_ now) fun i => ?_⟩
  · obtain ⟨rest, hbefore, hafter⟩ :=
      perm_resources (u.connected s.worker cli s now added) hk rfl
    rw [hphase] at hbefore
    have hnew := (Books.alloc u.resources (.socket s.upstream)).trans (.alloc _ (.pool s.upstreamPool))
    have hmove : (Resource.pool s.upstreamPool :: .socket s.upstream :: u.resources).Perm
        (u.connected s.worker cli s now added).resources := by
      refine ((hbefore.cons _).cons _).trans (.trans ?_ hafter.symm)
      have hfront (l : List Resource) : (Resource.pool s.upstreamPool :: .socket s.upstream ::
          .pool cli :: .socket s.back :: l).Perm (.socket s.upstream :: .pool cli :: .socket s.back ::
            .pool s.upstreamPool :: l) :=
        (@List.perm_middle _ _ [Resource.socket s.upstream, .pool cli, .socket s.back] l).symm
      exact (hfront _).trans (.swap _ _ _)
    exact (hnew.trans (.readAll [.socket s.upstream, .pool s.upstreamPool] (by simp))).trans_perm hmove
  · intro v k' hk'
    obtain ⟨k₀, hk₀, rfl⟩ := getElem?_modify_eq_some hk'
    split
    · next hwv =>
        subst hwv
        exact (h.owns _ k₀ hk₀).connected cli added
    · exact (h.owns v k₀ hk₀).mono s
  · exact Int.natCast_pos.mpr hfd
  · simp [Udp.openTo, Udp.connected, List.countP_cons]

theorem UdpWorker.Owns.teardown {sessions : List Session} {v : Nat} (h : k.Owns sessions v)
    (hs : s ∉ k.phase.evs) : (k.close s.upstream).Owns (sessions.filter (· ≠ s)) v where
  epoll t ht := by
    obtain ⟨ht, hne⟩ := List.mem_filter.mp ht
    refine ⟨List.mem_filter.mpr ⟨(h.epoll t ht).1, ?_⟩, (h.epoll t ht).2⟩
    refine decide_eq_true ?_
    rintro rfl
    simp at hne
  evs t ht := by
    refine ⟨List.mem_filter.mpr ⟨(h.evs t ht).1, decide_eq_true ?_⟩, (h.evs t ht).2⟩
    rintro rfl
    exact hs ht
  nodup := h.nodup
  count := h.count

theorem UdpWorker.Owns.countDown {sessions : List Session} {v : Nat} (h : k.Owns sessions v) :
    k.countDown.Owns sessions v := by
  refine ⟨h.epoll, h.evs, h.nodup, ?_⟩
  change k.connectionN - 1 = 0 - UInt64.ofNat (k.torn + 1)
  rw [h.count, UInt64.ofNat_add]
  grind

theorem Udp.Sound.sessions_nodup (h : u.Sound) : u.sessions.Nodup :=
  nodup_of_flatMap (fun _ => List.cons_ne_nil _ _) (List.nodup_append.mp h.nodup).2.1

theorem Udp.Sound.teardown {evs : List Session} {f : Srv → Srv} (h : u.Sound)
    (hk : u.workers[w]? = some k) (hphase : k.phase = .events cli (s :: evs))
    (hf : ∀ srv, (f srv).connectionN = srv.connectionN - 1) :
    u.Goes none (s.resources.map .read ++ s.teardownCalls)
      { (u.goto w (.events cli evs)).teardown w s with srvs := u.srvs.modify s.srv f } := by
  have howns := h.owns w k hk
  obtain ⟨hs, hw⟩ := howns.evs s (by rw [hphase]; exact List.mem_cons_self)
  have hevs : (s :: evs).Nodup := by
    have hnodup := howns.nodup
    rwa [hphase] at hnodup
  generalize hu' : { (u.goto w (.events cli evs)).teardown w s with
    srvs := u.srvs.modify s.srv f } = u'
  have hsessions : u'.sessions = u.sessions.filter (· ≠ s) := by rw [← hu']; rfl
  have hworkers : u'.workers = ((u.workers.modify w (UdpWorker.goto (.events cli evs))).map
      (UdpWorker.close s.upstream)).modify w UdpWorker.countDown := by rw [← hu']; rfl
  refine ⟨?_, ?_, fun _ hcounts => ?_⟩
  · have hmap : u'.workers.map UdpWorker.phase =
        (u.workers.modify w (UdpWorker.goto (.events cli evs))).map UdpWorker.phase := by
      rw [hworkers, map_modify_of_eq (f := UdpWorker.countDown) fun _ => rfl, List.map_map]
      rfl
    obtain ⟨rest, hbefore, hafter⟩ := perm_resources u' hk hmap
    have hperm : u.resources.Perm (s.resources ++ u'.resources) := by
      have hgone := (perm_cons_filter_ne h.sessions_nodup hs).symm.flatMap_right Session.resources
      rw [List.flatMap_cons, ← hsessions] at hgone
      rw [hphase] at hbefore
      refine hbefore.trans (.trans ?_ (hafter.symm.append_left _))
      refine ((hgone.append_right rest).append_left _).trans ?_
      rw [List.append_assoc]
      exact List.perm_append_comm_assoc _ _ _
    refine (Books.readAll s.resources fun x hx => ?_).trans (books_teardownCalls hperm)
    exact hperm.mem_iff.mpr (List.mem_append_left _ hx)
  · intro v k' hk'
    rw [hworkers] at hk'
    rw [hsessions]
    obtain ⟨k₁, hk₁, rfl⟩ := getElem?_modify_eq_some hk'
    rw [List.getElem?_map] at hk₁
    obtain ⟨k₂, hk₂, rfl⟩ := Option.map_eq_some_iff.mp hk₁
    obtain ⟨k₀, hk₀, rfl⟩ := getElem?_modify_eq_some hk₂
    by_cases hwv : w = v
    · subst hwv
      rw [if_pos rfl, if_pos rfl]
      have hgoto : (k₀.goto (.events cli evs)).Owns u.sessions w := by
        refine (h.owns w k₀ hk₀).goto (fun t ht => howns.evs t ?_) (List.nodup_cons.mp hevs).2
        rw [hphase]
        exact List.mem_cons_of_mem s ht
      exact (hgoto.teardown (List.nodup_cons.mp hevs).1).countDown
    · rw [if_neg hwv, if_neg hwv]
      refine (h.owns v k₀ hk₀).teardown fun hmem => hwv ?_
      rw [← hw, ((h.owns v k₀ hk₀).evs s hmem).2]
  · rw [← hu']
    refine hcounts.down hf fun i => ?_
    have hcount := countP_filter_ne (P := fun t : Session => decide (t.srv = i)) h.sessions_nodup hs
    simpa [Udp.openTo, Udp.teardown, Udp.goto] using hcount

theorem Udp.Sound.handled {evs : List Session} {ending : Ending} {f : Srv → Srv} (h : u.Sound)
    (hk : u.workers[w]? = some k) (hphase : k.phase = .events cli (s :: evs))
    (hf : ∀ srv, (f srv).connectionN =
      if ending = .closed then srv.connectionN - 1 else srv.connectionN) :
    u.Goes none (s.resources.map .read ++ if ending = .closed then s.teardownCalls else [])
      (u.handled w cli s evs ending f) := by
  have howns := h.owns w k hk
  unfold Udp.handled
  simp only
  split
  · next hclosed =>
      simp only [hclosed, ↓reduceIte] at hf
      exact h.teardown hk hphase hf
  · next hclosed =>
      simp only [hclosed, ↓reduceIte] at hf
      rw [List.append_nil]
      have hmem : s ∈ k.phase.evs := by
        rw [hphase]
        exact List.mem_cons_self
      have hnodup := howns.nodup
      rw [hphase] at hnodup
      refine h.goto hk (fun rest hrest => ?_) (fun t ht => howns.evs t ?_)
        (List.nodup_cons.mp hnodup).2 fun _ hcounts => hcounts.same hf
      · rw [hphase] at hrest ⊢
        refine .readAll s.resources fun x hx => hrest.mem_iff.mp ?_
        exact List.mem_append_right _ (List.mem_flatMap.mpr ⟨s, (howns.evs s hmem).1, hx⟩)
      · rw [hphase]
        exact List.mem_cons_of_mem s ht

/-! ## Runs -/

theorem Udp.Sound.goes (h : u.Sound) (hs : u.step ring a = some u') :
    u.Goes a.choice (u.calls a) u' := by
  unfold Udp.step at hs
  split at hs
  · cases hs
  cases a with
  | receive w cli back =>
      simp only [Udp.alive] at hs
      split at hs
      · next hw =>
          cases hs
          obtain ⟨k, hk, hphase⟩ := udp_phase_eq_some hw
          exact h.receive hk hphase back
      · cases hs
  | select w c =>
      simp only [Udp.alive] at hs
      split at hs
      · next cli back backPool hw =>
          cases hs
          obtain ⟨k, hk, hphase⟩ := udp_phase_eq_some hw
          simp only [Udp.calls, hw]
          exact h.select hk hphase
      · cases hs
  | connectOk w upstream pool now added =>
      simp only [Udp.alive] at hs
      split at hs
      · next cli back backPool i hw =>
          split at hs
          · next hfd =>
              cases hs
              obtain ⟨k, hk, hphase⟩ := udp_phase_eq_some hw
              exact h.connected (s := ⟨w, i, back, backPool, upstream, pool⟩) hk hphase hfd
          · cases hs
      · cases hs
  | connectFail w ret now =>
      simp only [Udp.alive] at hs
      split at hs
      · split at hs
        · next hret =>
            cases hs
            exact h.crash (.refl _) fun _ hcounts =>
              hcounts.same (Srv.connectionN_refused hret now)
        · cases hs
      · cases hs
  | wait w evs =>
      simp only [Udp.alive] at hs
      split at hs
      · next cli hw =>
          split at hs
          · next hevs =>
              cases hs
              obtain ⟨k, hk, hphase⟩ := udp_phase_eq_some hw
              obtain ⟨hnodup, -, hsub⟩ := hevs
              rw [hk, Option.any_some, List.all_eq_true] at hsub
              refine h.goto hk (fun rest _ => ?_) (fun s hs => ?_) hnodup fun _ hcounts => hcounts
              · rw [hphase]
                exact .refl _
              · exact (h.owns w k hk).epoll s (List.contains_iff_mem.mp (hsub s hs))
          · cases hs
      · cases hs
  | waitFail w =>
      simp only [Udp.alive] at hs
      split at hs
      · cases hs
        exact h.crash (.refl _) fun _ hcounts => hcounts
      · cases hs
  | event w buf ins outs =>
      simp only [Udp.alive] at hs
      split at hs
      · next cli s evs hw =>
          split at hs
          · cases hs
          · cases hs
            obtain ⟨k, hk, hphase⟩ := udp_phase_eq_some hw
            simp only [Udp.calls, hw]
            exact h.handled hk hphase fun srv => connectionN_disconnect _ srv
      · cases hs
  | finish w =>
      simp only [Udp.alive] at hs
      split at hs
      · next cli hw =>
          cases hs
          obtain ⟨k, hk, hphase⟩ := udp_phase_eq_some hw
          simp only [Udp.calls, hw]
          refine h.goto hk (fun rest _ => ?_) nofun List.nodup_nil fun _ hcounts => hcounts
          rw [hphase]
          exact .free (.refl _)
      · cases hs

theorem Udp.Sound.run {as : List UdpAction} (h : u.Sound) (hrun : u.run ring as = some u')
    (hsane : Along Entry.next Entry.Sane u.resources.toFinset (u.trace ring as)) :
    Books u.resources (u.trace ring as) u'.resources ∧ u'.Sound ∧
      ((∀ a ∈ as, a.choice.all fun c => !c.isLeastConn) → Counts u.srvs u.openTo →
        Counts u'.srvs u'.openTo) := by
  induction as generalizing u with
  | nil =>
      cases hrun
      exact ⟨.refl _, h, fun _ hcounts => hcounts⟩
  | cons a as ih =>
      obtain ⟨u₁, hs, hrun⟩ := Option.bind_eq_some_iff.mp hrun
      have hgoes := h.goes hs
      simp only [Udp.trace, hs] at hsane ⊢
      obtain ⟨hsane, hrest⟩ := along_append.mp hsane
      obtain ⟨-, hlive, hnodup⟩ := hgoes.books h.nodup hsane
      rw [hlive] at hrest
      obtain ⟨hbooks, hsound, hcounts⟩ := ih ⟨hnodup, hgoes.owns⟩ hrun hrest
      refine ⟨hgoes.books.trans hbooks, hsound, fun hpolicy hinit => hcounts ?_ ?_⟩
      · exact fun b hb => hpolicy b (List.mem_cons_of_mem a hb)
      · exact hgoes.counts (hpolicy a List.mem_cons_self) hinit

/-- In every run of the workers, in any order: every socket and pool that is used or given back is open
at that time, every descriptor that a teardown names once more is closed, and what is open at the end
is what the workers hold and what the open sessions have. -/
theorem resources_of_udp (ring : List Point) (srvs : List Srv) (n : Nat) (as : List UdpAction)
    (u : Udp) (hrun : (Udp.init srvs n).run ring as = some u)
    (hsane : Along Entry.next Entry.Sane ∅ ((Udp.init srvs n).trace ring as)) :
    Along Entry.next Entry.Legal ∅ ((Udp.init srvs n).trace ring as) ∧
      ((Udp.init srvs n).trace ring as).foldl Entry.next ∅ = u.resources.toFinset ∧
        u.resources.Nodup := by
  have hinit := udp_sound_init srvs n
  rw [← List.toFinset_nil, ← udp_resources_init srvs n] at hsane ⊢
  exact (hinit.run hrun hsane).1 hinit.nodup hsane

/-- A session ends with an empty datagram, and the next one has its sockets and pools. -/
theorem resources_of_udp_reused :
    let c : Conf := ⟨[49], 80, 1, 1, 10, 1, 0, none⟩
    let u := Udp.init (confParse (fun _ => default) [c]) 2
    let as : List UdpAction := [.receive 0 30 (some (5, 31)), .receive 1 32 (some (7, 33)),
      .select 0 (.roundRobin 5), .connectOk 0 6 34 5 true, .wait 0 [⟨0, 0, 5, 31, 6, 34⟩],
      .event 0 (fun _ => 0) [.data []] [], .finish 0, .receive 0 30 (some (5, 31)),
      .select 0 (.roundRobin 6), .connectOk 0 6 34 6 true]
    ∃ u', u.run [] as = some u' ∧ u'.sessions = [⟨0, 0, 5, 31, 6, 34⟩] ∧
      Along Entry.next Entry.Legal ∅ (u.trace [] as) ∧
      (u.trace [] as).foldl Entry.next ∅ = u'.resources.toFinset ∧ u'.resources.Nodup := by
  intro c u as
  have hrun : (u.run [] as).map Udp.sessions = some [⟨0, 0, 5, 31, 6, 34⟩] := by decide +kernel
  obtain ⟨u', hrun, hsessions⟩ := Option.map_eq_some_iff.mp hrun
  exact ⟨u', hrun, hsessions, resources_of_udp [] _ 2 as u' hrun (by decide +kernel)⟩

theorem openTo_le_fds (h : u.Sound) (i : Nat) : u.openTo i ≤ 2 ^ 31 := by
  have hsub : (u.sessions.map fun s => Resource.socket s.upstream).Sublist
      (u.sessions.flatMap Session.resources) := by
    rw [List.map_eq_flatMap]
    refine List.Sublist.flatMap_right _ fun s _ => ?_
    exact .cons_cons _ (List.nil_sublist _)
  have hnodup := (List.nodup_append.mp h.nodup).2.1.sublist hsub
  have hfds : (u.sessions.map Session.upstream).Nodup := by
    refine List.Nodup.of_map Resource.socket ?_
    rwa [List.map_map]
  have hcard := hfds.length_le_card
  rw [Fintype.card_fin, List.length_map] at hcard
  exact List.countP_le_length.trans hcard

/-- Under every policy but the least connection rule each server is counted at the number of its open
sessions. The counter of a worker is never counted up, so that it has wrapped around once for the
sessions that the worker has torn down. -/
theorem udp_accounting (ring : List Point) (mem : Nat → Srv) (cs : List Conf) (n : Nat)
    (as : List UdpAction) (u : Udp) (hpolicy : ∀ a ∈ as, a.choice.all fun c => !c.isLeastConn)
    (hrun : (Udp.init (confParse mem cs) n).run ring as = some u)
    (hsane : Along Entry.next Entry.Sane ∅ ((Udp.init (confParse mem cs) n).trace ring as)) :
    (∀ (i : Nat) (srv : Srv), u.srvs[i]? = some srv → srv.connectionN.toNat = u.openTo i) ∧
      ∀ (w : Nat) (k : UdpWorker), u.workers[w]? = some k →
        k.connectionN = 0 - UInt64.ofNat k.torn := by
  have hinit := udp_sound_init (confParse mem cs) n
  rw [← List.toFinset_nil, ← udp_resources_init (confParse mem cs) n] at hsane
  obtain ⟨-, hsound, hcounts⟩ := hinit.run hrun hsane
  refine ⟨fun i srv hsrv => ?_, fun w k hk => (hsound.owns w k hk).count⟩
  have hle := openTo_le_fds hsound i
  rw [hcounts hpolicy (counts_confParse mem cs) i srv hsrv, UInt64.toNat_ofNat']
  exact Nat.mod_eq_of_lt (by omega)

theorem udp_accounting_one :
    let c : Conf := ⟨[49], 80, 1, 1, 10, 1, 0, none⟩
    let u := Udp.init (confParse (fun _ => default) [c]) 1
    let as : List UdpAction := [.receive 0 30 (some (5, 31)), .select 0 (.roundRobin 5),
      .connectOk 0 6 34 5 true, .wait 0 [⟨0, 0, 5, 31, 6, 34⟩], .event 0 (fun _ => 0) [.data []] []]
    ∃ u', u.run [] as = some u' ∧ u'.workers.map UdpWorker.connectionN = [0xffffffffffffffff] ∧
      (∀ (i : Nat) (srv : Srv), u'.srvs[i]? = some srv → srv.connectionN.toNat = u'.openTo i) ∧
      ∀ (w : Nat) (k : UdpWorker), u'.workers[w]? = some k →
        k.connectionN = 0 - UInt64.ofNat k.torn := by
  intro c u as
  have hrun : (u.run [] as).map (fun u => u.workers.map UdpWorker.connectionN) =
      some [0xffffffffffffffff] := by decide +kernel
  obtain ⟨u', hrun, hcount⟩ := Option.map_eq_some_iff.mp hrun
  exact ⟨u', hrun, hcount,
    udp_accounting [] (fun _ => default) [c] 1 as u' (by decide) hrun (by decide +kernel)⟩

end Umicat.Proxy
