import Umicat.Proxy.Lemmas.Step
import Umicat.Proxy.Lifecycle

/-!
# Sockets and pools

Whatever the acceptor, the workers and the checker do and in whatever order: no connection is closed
twice or used behind its end, but for the two descriptors that a teardown takes out of the epoll sets
once it has closed them, and what is open belongs to a client that waits, to one that a worker has
taken, or to an open pair.
-/

namespace Umicat.Proxy

open Umicat.Base
open Umicat.Relay
open Umicat.Upstream

/-! ## The resources of a state -/

variable {ring : List Point} {l l' : Life} {w : Nat} {c : Client} {p : Proxied}

theorem resources_withSys {s : Sys} (h : s.pairs = l.sys.pairs) :
    (l.withSys s).resources = l.resources := by
  have hpairs : (l.withSys s).sys.pairs.flatMap (l.withSys s).pairResources =
      l.sys.pairs.flatMap l.pairResources := congrArg (List.flatMap l.pairResources) h
  exact congrArg (l.queue.flatMap Client.resources ++
    (l.held.flatMap fun h => h.2.resources) ++ ·) hpairs

theorem perm_of_lookup {held : List (Nat × Client)} (hnodup : (held.map Prod.fst).Nodup)
    (h : held.lookup w = some c) : held.Perm ((w, c) :: held.filter (·.1 ≠ w)) := by
  induction held with
  | nil => cases h
  | cons x held ih =>
      obtain ⟨v, d⟩ := x
      obtain ⟨hv, hnodup⟩ := List.nodup_cons.mp hnodup
      by_cases hvw : w = v
      · subst hvw
        obtain rfl : d = c := by simpa using h
        have hrest : held.filter (·.1 ≠ w) = held := by
          refine List.filter_eq_self.mpr fun x hx => decide_eq_true fun he => ?_
          have hmem : x.1 ∈ held.map Prod.fst := List.mem_map_of_mem hx
          rw [he] at hmem
          exact hv hmem
        rw [List.filter_cons_of_neg (by simp), hrest]
      · rw [List.lookup_cons, beq_eq_false_iff_ne.mpr hvw] at h
        rw [List.filter_cons_of_pos (by simpa using Ne.symm hvw)]
        exact ((ih hnodup h).cons (v, d)).trans (.swap _ _ _)

/-- The client that a worker has taken beside everything else. -/
theorem resources_release (hnodup : (l.held.map Prod.fst).Nodup) (h : l.heldBy w = some c) :
    l.resources.Perm (c.resources ++ (l.release w).resources) := by
  have hheld := (perm_of_lookup hnodup h).flatMap_right fun h => h.2.resources
  rw [List.flatMap_cons] at hheld
  have hqueue := (hheld.append_left (l.queue.flatMap Client.resources)).append_right
    (l.sys.pairs.flatMap l.pairResources)
  refine hqueue.trans ?_
  simp only [Life.resources, Life.release, List.append_assoc]
  rw [← List.append_assoc, ← List.append_assoc c.resources]
  exact List.perm_append_comm.append_right _

/-- A pair beside everything else. -/
theorem resources_pair (hs : l.sys.Sound) (hp : p ∈ l.sys.pairs) {s : Sys}
    (h : s.pairs = l.sys.pairs.filter (· ≠ p)) :
    l.resources.Perm (l.pairResources p ++ (l.withSys s).resources) := by
  have hpairs := (perm_cons_filter_ne hs.nodup hp).symm.flatMap_right l.pairResources
  rw [List.flatMap_cons, ← h] at hpairs
  refine (hpairs.append_left _).trans ?_
  rw [← List.append_assoc]
  refine (List.perm_append_comm.append_right _).trans ?_
  rw [List.append_assoc]
  rfl

/-! ## The invariant -/

structure Life.Sound (l : Life) : Prop where
  sys : l.sys.Sound
  nodup : l.resources.Nodup
  workers : (l.held.map Prod.fst).Nodup
  below : ∀ n, .pool n ∈ l.resources → n < l.nextPool

/-- What a step has to give: the ledger, and the invariant behind it. -/
structure Life.Goes (l : Life) (es : List (Entry Resource)) (l' : Life) : Prop where
  sane : Along Entry.next Entry.Sane l.resources.toFinset es
  books : Books l.resources es l'.resources
  sys : l'.sys.Sound
  workers : (l'.held.map Prod.fst).Nodup
  below : ∀ n, .pool n ∈ l'.resources → n < l'.nextPool

/-- Entries that take nothing. -/
def Gives (es : List (Entry Resource)) : Prop := ∀ e ∈ es, ∀ r, e ≠ .alloc r

theorem Gives.append {es es' : List (Entry Resource)} (h : Gives es) (h' : Gives es') :
    Gives (es ++ es') := List.forall_mem_append.mpr ⟨h, h'⟩

theorem gives_reads (rs : List Resource) : Gives (rs.map .read) := by simp [Gives]

theorem gives_frees (rs : List Resource) : Gives (rs.map .free) := by simp [Gives]

theorem gives_teardownCalls (fd fd' : Fd) (pool pool' : Nat) :
    Gives (teardownCalls fd fd' pool pool') := by simp [Gives, teardownCalls]

theorem along_of_gives {es : List (Entry Resource)} (h : Gives es) (live : Finset Resource) :
    Along Entry.next Entry.Sane live es := by
  induction es generalizing live with
  | nil => trivial
  | cons e es ih =>
      refine ⟨?_, ih (fun e' he' => h e' (List.mem_cons_of_mem _ he')) _⟩
      cases e with
      | alloc r => exact absurd rfl (h _ List.mem_cons_self r)
      | free r => trivial
      | read r => trivial
      | late r => trivial

/-- Nothing new is taken. -/
theorem Life.Goes.of_gives {es : List (Entry Resource)} (h : l.Sound) (hgives : Gives es)
    (hbooks : Books l.resources es l'.resources) (hsub : ∀ r ∈ l'.resources, r ∈ l.resources)
    (hsys : l'.sys.Sound) (hworkers : (l'.held.map Prod.fst).Nodup)
    (hnext : l'.nextPool = l.nextPool) : l.Goes es l' := by
  refine ⟨along_of_gives hgives _, hbooks, hsys, hworkers, fun n hn => ?_⟩
  rw [hnext]
  exact h.below n (hsub _ hn)

/-- Reads of what is open, and then the end of some of it. -/
theorem Life.Goes.of_frees (h : l.Sound) (rs fs : List Resource) (hrs : ∀ r ∈ rs, r ∈ l.resources)
    (hfs : l.resources.Perm (fs ++ l'.resources)) (hsys : l'.sys.Sound)
    (hworkers : (l'.held.map Prod.fst).Nodup) (hnext : l'.nextPool = l.nextPool) :
    l.Goes (rs.map .read ++ fs.map .free) l' :=
  .of_gives h ((gives_reads rs).append (gives_frees fs))
    ((Books.readAll rs hrs).trans (.freeAll fs hfs))
    (fun _ hr => hfs.mem_iff.mpr (List.mem_append_right _ hr)) hsys hworkers hnext

/-- A new socket with a new pool. -/
theorem Life.Goes.of_new (h : l.Sound) {fd : Fd} (hfd : .socket fd ∉ l.resources)
    (hres : l'.resources.Perm (.pool l.nextPool :: .socket fd :: l.resources)) (hsys : l'.sys.Sound)
    (hworkers : (l'.held.map Prod.fst).Nodup) (hnext : l'.nextPool = l.nextPool + 1) :
    l.Goes [.alloc (.socket fd), .alloc (.pool l.nextPool)] l' := by
  have hpool : .pool l.nextPool ∉ l.resources := fun hmem => lt_irrefl _ (h.below _ hmem)
  have hbooks := (Books.alloc l.resources (.socket fd)).trans (.alloc _ (.pool l.nextPool))
  refine ⟨⟨mt List.mem_toFinset.mp hfd, ?_, trivial⟩, hbooks.trans (.perm hres.symm), hsys,
    hworkers, ?_⟩
  · simp only [Entry.Sane, Entry.next, Finset.mem_insert, reduceCtorEq, false_or]
    exact mt List.mem_toFinset.mp hpool
  · intro n hn
    rw [hnext]
    rcases List.mem_cons.mp (hres.mem_iff.mp hn) with heq | hn
    · cases heq
      exact Nat.lt_succ_self _
    · rcases List.mem_cons.mp hn with heq | hn
      · cases heq
      · exact Nat.lt_succ_of_lt (h.below n hn)

theorem workers_release (h : (l.held.map Prod.fst).Nodup) (w : Nat) :
    ((l.release w).held.map Prod.fst).Nodup :=
  h.sublist (List.filter_sublist.map _)

theorem mem_resources_heldBy (hs : l.Sound) (h : l.heldBy w = some c) :
    .pool c.pool ∈ l.resources :=
  (resources_release hs.workers h).mem_iff.mpr (by simp [Client.resources])

theorem Life.Goes.read_after {es : List (Entry Resource)} {r : Resource} (h : l.Goes es l')
    (hr : r ∈ l'.resources) : l.Goes (es ++ [.read r]) l' :=
  ⟨along_append.mpr ⟨h.sane, trivial, trivial⟩, h.books.trans (.read hr), h.sys, h.workers, h.below⟩

/-! ## Steps -/

theorem Life.Sound.accept {fd : Fd} (h : l.Sound) (hfd : .socket fd ∉ l.resources) :
    l.Goes [.alloc (.socket fd), .alloc (.pool l.nextPool)]
      { l with queue := l.queue ++ [⟨fd, l.nextPool⟩], nextPool := l.nextPool + 1 } := by
  refine .of_new h hfd ?_ h.sys h.workers rfl
  simp only [Life.resources, List.flatMap_append, List.flatMap_singleton, Client.resources,
    List.append_assoc]
  refine (List.perm_append_comm_assoc _ _ _).trans ?_
  exact .swap _ _ _

theorem Life.Sound.take {queue : List Client} (h : l.Sound) (hqueue : l.queue = c :: queue)
    (hheld : l.heldBy w = none) :
    l.Goes [.read (.pool c.pool)] { l with queue := queue, held := (w, c) :: l.held } := by
  have hperm : l.resources.Perm
      (Life.resources { l with queue := queue, held := (w, c) :: l.held }) := by
    simp only [Life.resources, hqueue, List.flatMap_cons, List.append_assoc]
    exact List.perm_append_comm_assoc _ _ _
  have hw : w ∉ l.held.map Prod.fst := by
    intro hmem
    obtain ⟨x, hx, rfl⟩ := List.mem_map.mp hmem
    have hne := List.lookup_eq_none_iff.mp hheld x hx
    simp at hne
  refine .of_frees h [.pool c.pool] [] ?_ hperm h.sys (List.nodup_cons.mpr ⟨hw, h.workers⟩) rfl
  intro r hr
  rw [List.mem_singleton.mp hr, hperm.mem_iff]
  simp [Life.resources, Client.resources]

/-- The client that worker `w` has taken is used and dropped. -/
theorem Life.Sound.drop {s : Sys} (h : l.Sound) (hheld : l.heldBy w = some c)
    (hpairs : s.pairs = l.sys.pairs) (hs : s.Sound) :
    l.Goes (.read (.pool c.pool) :: c.drop) ((l.release w).withSys s) := by
  refine .of_frees h [.pool c.pool] c.resources ?_ ?_ hs (workers_release h.workers w) rfl
  · intro r hr
    rw [List.mem_singleton.mp hr]
    exact mem_resources_heldBy h hheld
  · have hres : ((l.release w).withSys s).resources = (l.release w).resources :=
      resources_withSys hpairs
    rw [hres]
    exact resources_release h.workers hheld

/-- A step of the proxy that leaves the pairs as they are. -/
theorem Life.Sound.still {s : Sys} (h : l.Sound) (rs : List Resource)
    (hpairs : s.pairs = l.sys.pairs) (hs : s.Sound) (hrs : ∀ r ∈ rs, r ∈ l.resources) :
    l.Goes (rs.map .read) (l.withSys s) := by
  have hgoes : l.Goes (rs.map .read ++ ([] : List Resource).map .free) (l.withSys s) := by
    refine .of_frees h _ _ hrs ?_ hs h.workers rfl
    rw [resources_withSys hpairs]
    exact .refl _
  rwa [List.map_nil, List.append_nil] at hgoes

/-- The pair `p` is used and torn down, from either side. -/
theorem Life.Sound.teardown {s : Sys} {fd fd' : Fd} {pool pool' : Nat} (h : l.Sound)
    (hp : p ∈ l.sys.pairs) (hpairs : s.pairs = l.sys.pairs.filter (· ≠ p)) (hs : s.Sound)
    (hsides : [.socket fd, .socket fd', .pool pool, .pool pool'].Perm (l.pairResources p)) :
    l.Goes (l.relayCalls p ++ teardownCalls fd fd' pool pool') (l.withSys s) := by
  have hperm := resources_pair h.sys hp hpairs
  have hreads : Books l.resources (l.relayCalls p) l.resources :=
    .readAll _ fun r hr => hperm.mem_iff.mpr (List.mem_append_left _ hr)
  have hbooks := hreads.trans (books_teardownCalls (hperm.trans (hsides.symm.append_right _)))
  exact .of_gives h ((gives_reads _).append (gives_teardownCalls _ _ _ _)) hbooks
    (fun _ hr => hperm.mem_iff.mpr (List.mem_append_right _ hr)) hs h.workers rfl

/-- The pair that a worker makes of the client that it has taken. -/
theorem resources_paired (h : l.Sound) (hheld : l.heldBy w = some c) (i : Nat) (upstream : Fd)
    (now : UInt64) :
    (l.paired w c (l.sys.connected w i c.fd upstream now)).resources.Perm
      (.pool l.nextPool :: .socket upstream :: l.resources) := by
  generalize hl' : l.paired w c (l.sys.connected w i c.fd upstream now) = l'
  have hpools : l'.pools = Function.update l.pools l.sys.nextId (c.pool, l.nextPool) := by
    rw [← hl']
    rfl
  -- the other pairs have their pools as before
  have hpairs : l.sys.pairs.flatMap l'.pairResources = l.sys.pairs.flatMap l.pairResources := by
    refine List.flatMap_congr fun q hq => ?_
    have hlt := h.sys.below q.id (List.mem_append_left _ (List.mem_map_of_mem hq))
    simp only [Life.pairResources, hpools, Function.update_of_ne (Nat.ne_of_lt hlt)]
  have hnew : l'.resources = (l.release w).queue.flatMap Client.resources ++
      ((l.release w).held.flatMap fun h => h.2.resources) ++
      (c.resources ++ [.socket upstream, .pool l.nextPool] ++
        l.sys.pairs.flatMap l.pairResources) := by
    rw [← hpairs, ← hl']
    simp [Life.resources, Life.paired, Life.withSys, Sys.connected, Life.pairResources,
      Client.resources]
  rw [hnew]
  refine (List.perm_append_comm_assoc _ _ _).trans ?_
  refine (List.perm_append_comm.append_right _).trans ?_
  rw [List.append_assoc]
  refine (List.Perm.swap _ _ _).trans ?_
  exact ((resources_release h.workers hheld).symm.cons _).cons _

theorem Life.Sound.paired {i : Nat} {upstream : Fd} {now : UInt64} (h : l.Sound)
    (hheld : l.heldBy w = some c) (hup : .socket upstream ∉ l.resources)
    (hs : (l.sys.connected w i c.fd upstream now).Sound) :
    l.Goes [.alloc (.socket upstream), .alloc (.pool l.nextPool), .read (.pool c.pool)]
      (l.paired w c (l.sys.connected w i c.fd upstream now)) := by
  have hperm := resources_paired h hheld i upstream now
  refine (Life.Goes.of_new h hup hperm hs (workers_release h.workers w) rfl).read_after ?_
  refine hperm.mem_iff.mpr (List.mem_cons_of_mem _ (List.mem_cons_of_mem _ ?_))
  exact mem_resources_heldBy h hheld

/-! ## Events -/

theorem pairs_handled (s : Sys) (w : Nat) (p : Proxied) (phase : Phase) (ending : Ending)
    (f : Srv → Srv) : (s.handled w p phase ending f).pairs =
      if ending = .closed then s.pairs.filter (· ≠ p) else s.pairs := by
  unfold Sys.handled
  simp only
  split <;> rfl

theorem clientTeardown_perm (l : Life) (p : Proxied) :
    [Resource.socket p.client, .socket p.upstream, .pool (l.pools p.id).1,
      .pool (l.pools p.id).2].Perm (l.pairResources p) :=
  (List.Perm.swap _ _ _).cons _

theorem upstreamTeardown_perm (l : Life) (p : Proxied) :
    [Resource.socket p.upstream, .socket p.client, .pool (l.pools p.id).2,
      .pool (l.pools p.id).1].Perm (l.pairResources p) := by
  refine (List.Perm.swap _ _ _).trans (.cons _ ?_)
  exact ((List.Perm.swap _ _ _).cons _).trans (.swap _ _ _)

/-- An event of the pair `p`, with the teardown that its kind of event has. -/
theorem Life.Sound.event {before phase : Phase} {ending : Ending} {f : Srv → Srv}
    {fd fd' : Fd} {pool pool' : Nat} (h : l.Sound) (hw : l.sys.phase w = some before)
    (hev : before.events = p :: phase.events)
    (hsides : [.socket fd, .socket fd', .pool pool, .pool pool'].Perm (l.pairResources p)) :
    l.Goes (l.relayCalls p ++ if ending = .closed then teardownCalls fd fd' pool pool' else [])
      (l.withSys (l.sys.handled w p phase ending f)) := by
  obtain ⟨hp, -⟩ := h.sys.event hw (hev ▸ List.mem_cons_self)
  have hs := h.sys.handled hw hev ending f
  have hpairs := pairs_handled l.sys w p phase ending f
  split
  · next hclosed =>
      rw [if_pos hclosed] at hpairs
      exact h.teardown hp hpairs hs hsides
  · next hclosed =>
      rw [if_neg hclosed] at hpairs
      rw [List.append_nil]
      refine h.still _ hpairs hs fun r hr => ?_
      exact List.mem_append_right _ (List.mem_flatMap.mpr ⟨p, hp, hr⟩)

/-- A step that neither pairs a client nor handles an event. -/
theorem Life.Sound.quiet {s : Sys} {a : Action} (h : l.Sound) (hs : l.sys.step ring a = some s)
    (ha : a.still = true) : l.Goes [] (l.withSys s) :=
  h.still [] (pairs_of_step hs ha) (h.sys.moves (Sys.moves_of_step hs)) (List.forall_mem_nil _)

theorem Life.Sound.other {s : Sys} {a : Action} (h : l.Sound) (ha : l.free a = true)
    (hs : l.sys.step ring a = some s) : l.Goes (l.otherCalls a) (l.withSys s) := by
  cases a with
  | select w c => cases ha
  | connectOk w client upstream now => cases ha
  | connectFail w ret now => cases ha
  | clientEvent w now buf ins outs =>
      obtain ⟨p, evs, hw, -, rfl⟩ := step_clientEvent hs
      simp only [Life.otherCalls, hw]
      exact h.event hw rfl (clientTeardown_perm l p)
  | upstreamEvent w buf ins outs =>
      obtain ⟨p, evs, hw, -, rfl⟩ := step_upstreamEvent hs
      simp only [Life.otherCalls, hw]
      exact h.event hw rfl (upstreamTeardown_perm l p)
  | _ => exact h.quiet hs rfl

/-! ## Runs -/

theorem Life.Sound.goes {a : LifeAction} (h : l.Sound) (hstep : l.step ring a = some l') :
    l.Goes (l.calls ring a) l' := by
  cases a with
  | accept fd =>
      simp only [Life.step] at hstep
      split at hstep
      · cases hstep
      · next hfd =>
          cases hstep
          exact h.accept hfd
  | take w =>
      simp only [Life.step] at hstep
      split at hstep
      · next c queue hqueue hheld =>
          split at hstep
          · cases hstep
            simp only [Life.calls, hqueue]
            exact h.take hqueue hheld
          · cases hstep
      · cases hstep
  | select w c =>
      simp only [Life.step] at hstep
      split at hstep
      · next client s hheld hs =>
          have hsound := h.sys.moves (Sys.moves_of_step hs)
          have hpairs := pairs_of_step hs rfl
          simp only [Life.calls, hheld]
          split at hstep
          · next hnone =>
              cases hstep
              rw [if_pos hnone]
              exact h.drop hheld hpairs hsound
          · next hnone =>
              cases hstep
              rw [if_neg hnone]
              refine h.still [.pool client.pool] hpairs hsound fun r hr => ?_
              rw [List.mem_singleton.mp hr]
              exact mem_resources_heldBy h hheld
      · cases hstep
  | connectOk w upstream now =>
      simp only [Life.step] at hstep
      split at hstep
      · next client hheld =>
          split at hstep
          · cases hstep
          · next hup =>
              obtain ⟨s, hs, rfl⟩ := Option.map_eq_some_iff.mp hstep
              obtain ⟨i, -, hfresh, rfl⟩ := step_connectOk hs
              simp only [Life.calls, hheld]
              exact h.paired hheld hup (h.sys.connected hfresh now)
      · cases hstep
  | connectFail w ret now =>
      simp only [Life.step] at hstep
      split at hstep
      · next client hheld =>
          obtain ⟨s, hs, rfl⟩ := Option.map_eq_some_iff.mp hstep
          simp only [Life.calls, hheld]
          exact h.drop hheld (pairs_of_step hs rfl) (h.sys.moves (Sys.moves_of_step hs))
      · cases hstep
  | other a =>
      simp only [Life.step] at hstep
      split at hstep
      · next ha =>
          obtain ⟨s, hs, rfl⟩ := Option.map_eq_some_iff.mp hstep
          exact h.other ha hs
      · cases hstep

theorem life_sound_init (srvs : List Srv) (n : Nat) : (Life.init srvs n).Sound :=
  ⟨sound_init srvs n, List.nodup_nil, List.nodup_nil, nofun⟩

theorem Life.Sound.step {a : LifeAction} (h : l.Sound) (hstep : l.step ring a = some l') :
    l'.Sound ∧ Along Entry.next Entry.Legal l.resources.toFinset (l.calls ring a) ∧
      (l.calls ring a).foldl Entry.next l.resources.toFinset = l'.resources.toFinset := by
  have hgoes := h.goes hstep
  obtain ⟨hlegal, hlive, hnodup⟩ := hgoes.books h.nodup hgoes.sane
  exact ⟨⟨hgoes.sys, hnodup, hgoes.workers, hgoes.below⟩, hlegal, hlive⟩

theorem Life.Sound.run {as : List LifeAction} (h : l.Sound) (hrun : l.run ring as = some l') :
    Along Entry.next Entry.Legal l.resources.toFinset (l.trace ring as) ∧
      (l.trace ring as).foldl Entry.next l.resources.toFinset = l'.resources.toFinset := by
  induction as generalizing l with
  | nil =>
      cases hrun
      exact ⟨trivial, rfl⟩
  | cons a as ih =>
      obtain ⟨l₁, hstep, hrest⟩ := Option.bind_eq_some_iff.mp hrun
      obtain ⟨hsound, hlegal, hlive⟩ := h.step hstep
      obtain ⟨hlegal', hlive'⟩ := ih hsound hrest
      simp only [Life.trace, hstep]
      refine ⟨along_append.mpr ⟨hlegal, ?_⟩, ?_⟩
      · rw [hlive]
        exact hlegal'
      · rw [List.foldl_append, hlive, hlive']

/-- In every run of the acceptor, the workers and the checker, in any order: every socket and every
pool that is used or closed is open at that time, every descriptor that a teardown names once more is
closed, and what is open at the end is what belongs to the clients that wait, to those that workers
have taken, and to the open pairs. -/
theorem resources_of_run (ring : List Point) (srvs : List Srv) (n : Nat) {as : List LifeAction}
    {l : Life} (hrun : (Life.init srvs n).run ring as = some l) :
    Along Entry.next Entry.Legal ∅ ((Life.init srvs n).trace ring as) ∧
      ((Life.init srvs n).trace ring as).foldl Entry.next ∅ = l.resources.toFinset :=
  (life_sound_init srvs n).run hrun

/-- A pair whose client disconnects, a client that is refused, and a new client on the descriptor of
the first one. -/
theorem resources_of_run_reused :
    let c : Conf := ⟨[49], 80, 1, 1, 10, 1, 0, none⟩
    let l := Life.init (confParse (fun _ => default) [c]) 1
    let as : List LifeAction := [.accept 5, .accept 6, .take 0, .select 0 (.roundRobin 5),
      .connectOk 0 7 5, .other (.clientWait 0 [⟨0, 0, 5, 7, 0⟩]),
      .other (.clientEvent 0 7 (fun _ => 0) [.eof] []), .other (.upstreamWait 0 []),
      .other (.again 0), .take 0, .select 0 (.roundRobin 8), .connectFail 0 (-1) 8, .accept 5]
    ∃ l', l.run [] as = some l' ∧ l'.resources = [.socket 5, .pool 3] ∧
      Along Entry.next Entry.Legal ∅ (l.trace [] as) ∧
      (l.trace [] as).foldl Entry.next ∅ = l'.resources.toFinset := by
  intro c l as
  have hrun : (l.run [] as).map Life.resources = some [.socket 5, .pool 3] := by decide +kernel
  obtain ⟨l', hrun, hres⟩ := Option.map_eq_some_iff.mp hrun
  exact ⟨l', hrun, hres, resources_of_run [] _ 1 hrun⟩

end Umicat.Proxy
