import Mathlib.Data.List.Flatten
import Umicat.Check.Bag

/-!
# The checker over whole runs

However timers, connections and workers interleave, and whatever numbers and addresses the system
gives out again: no descriptor and no block is given back twice or used behind its end, and the loop
does with the probes what the bag does.
-/

namespace Umicat.Check

open Umicat.Base
open Umicat.Upstream

variable {ring : List Point} {c c' : Checker} {r : Registration} {a : Answers}

/-! ## The invariant -/

/-- The block behind every registration is about it, and a registration is one of a timer exactly
when its server says so. -/
structure Checker.Sound (c : Checker) : Prop where
  nodup : c.resources.Nodup
  fd : ∀ r ∈ c.pending ++ c.clocks, (c.heap r.ptr).fd = r.fd
  srv : ∀ r ∈ c.pending ++ c.clocks, (c.heap r.ptr).srv < c.timers.length
  clock : ∀ r ∈ c.clocks, c.timers[(c.heap r.ptr).srv]? = some r.fd
  batch : ∀ r ∈ c.batch, r.oneshot = false → r ∈ c.clocks
  timers : c.phase ≠ .stopped → c.timers = c.clocks.map (·.fd)

/-- What a step has to give. -/
structure Goes (ring : List Point) (c : Checker) (es : List (Entry Resource)) (ls : List Label)
    (c' : Checker) : Prop where
  books : Books c.resources es c'.resources
  sound : c'.resources.Nodup → c'.Sound
  bag : c'.resources.Nodup → ls.foldlM (Bag.step ring) c.bag = some c'.bag

theorem sound_start (srvs : List Srv) (heap : Nat → CheckData) :
    (Checker.start srvs heap).Sound where
  nodup := List.nodup_nil
  fd := nofun
  srv := nofun
  clock := nofun
  batch := nofun
  timers _ := rfl

theorem mem_of_batch (h : c.Sound) (hr : r ∈ c.batch) : r ∈ c.pending ++ c.clocks := by
  cases hone : r.oneshot with
  | true => exact List.mem_append_left _ (List.mem_filter.mpr ⟨List.mem_append_left _ hr, hone⟩)
  | false => exact List.mem_append_right _ (h.batch r hr hone)

theorem mem_of_registered (hr : r ∈ c.registered) : r ∈ c.pending ++ c.clocks := by
  cases hone : r.oneshot with
  | true => exact List.mem_append_left _ (List.mem_filter.mpr ⟨List.mem_append_right _ hr, hone⟩)
  | false => exact List.mem_append_right _ (List.mem_filter.mpr ⟨hr, by simp [hone]⟩)

theorem mem_resources (hr : r ∈ c.pending ++ c.clocks) {x : Resource} (hx : x ∈ r.resources) :
    x ∈ c.resources :=
  List.mem_append_right _ (List.mem_flatMap.mpr ⟨r, hr, hx⟩)

/-- The descriptor of a probe is none of the timers. -/
theorem fd_ne_of_pending (h : c.Sound) {t : Registration} (hr : r ∈ c.pending)
    (ht : t ∈ c.clocks) : t.fd ≠ r.fd := by
  intro heq
  have hnodup := (List.nodup_append.mp h.nodup).2.1
  rw [List.flatMap_append] at hnodup
  refine List.disjoint_of_nodup_append hnodup (a := .fd r.fd) ?_ ?_
  · exact List.mem_flatMap.mpr ⟨r, hr, List.mem_cons_self⟩
  · exact List.mem_flatMap.mpr ⟨t, ht, heq ▸ List.mem_cons_self⟩

/-- The test of the loop finds out what an event is about. -/
theorem isTimer_eq (h : c.Sound) (hphase : c.phase ≠ .stopped) (hr : r ∈ c.batch) :
    c.isTimer (c.heap r.ptr) = !r.oneshot := by
  have hmem := mem_of_batch h hr
  unfold Checker.isTimer
  rw [h.fd r hmem]
  cases hone : r.oneshot with
  | false =>
      rw [h.clock r (h.batch r hr hone)]
      exact beq_self_eq_true _
  | true =>
      obtain ⟨fd, hfd⟩ : ∃ fd, c.timers[(c.heap r.ptr).srv]? = some fd :=
        ⟨_, List.getElem?_eq_getElem (h.srv r hmem)⟩
      have htimer : fd ∈ c.clocks.map (·.fd) := h.timers hphase ▸ List.mem_of_getElem? hfd
      obtain ⟨t, ht, rfl⟩ := List.mem_map.mp htimer
      have hpending : r ∈ c.pending := List.mem_filter.mpr ⟨List.mem_append_left _ hr, hone⟩
      rw [hfd]
      exact beq_eq_false_iff_ne.mpr fun heq => fd_ne_of_pending h hpending ht (Option.some.inj heq)

/-! ## Blocks that are given out -/

/-- What a step may do to timers and blocks so that the registrations `rs` are as before. -/
structure Keeps (c c' : Checker) (rs : List Registration) : Prop where
  heap : ∀ r ∈ rs, c'.heap r.ptr = c.heap r.ptr
  timers : c.timers <+: c'.timers

theorem Keeps.fd {rs : List Registration} (hk : Keeps c c' rs)
    (h : ∀ r ∈ rs, (c.heap r.ptr).fd = r.fd) : ∀ r ∈ rs, (c'.heap r.ptr).fd = r.fd := by
  intro r hr
  rw [hk.heap r hr]
  exact h r hr

theorem Keeps.srv {rs : List Registration} (hk : Keeps c c' rs)
    (h : ∀ r ∈ rs, (c.heap r.ptr).srv < c.timers.length) :
    ∀ r ∈ rs, (c'.heap r.ptr).srv < c'.timers.length := by
  intro r hr
  rw [hk.heap r hr]
  exact Nat.lt_of_lt_of_le (h r hr) hk.timers.length_le

theorem Keeps.clock {rs ts : List Registration} (hk : Keeps c c' rs) (hts : ∀ r ∈ ts, r ∈ rs)
    (h : ∀ r ∈ ts, c.timers[(c.heap r.ptr).srv]? = some r.fd) :
    ∀ r ∈ ts, c'.timers[(c'.heap r.ptr).srv]? = some r.fd := by
  intro r hr
  obtain ⟨new, hnew⟩ := hk.timers
  have hlt := (List.getElem?_eq_some_iff.mp (h r hr)).1
  rw [hk.heap r (hts r hr), ← hnew, List.getElem?_append_left hlt, h r hr]

theorem Keeps.probes {rs ps : List Registration} (hk : Keeps c c' rs) (hps : ∀ r ∈ ps, r ∈ rs) :
    (ps.map fun r => (c'.heap r.ptr).probe) = ps.map fun r => (c.heap r.ptr).probe :=
  List.map_congr_left fun r hr => by rw [hk.heap r (hps r hr)]

/-- A step that leaves registrations and events as they are. -/
theorem Goes.of_still {es : List (Entry Resource)} {ls : List Label} (h : c.Sound)
    (hregistered : c'.registered = c.registered) (hbatch : c'.batch = c.batch)
    (hbooks : Books c.resources es c'.resources)
    (hk : c'.resources.Nodup → Keeps c c' (c.pending ++ c.clocks))
    (hphase : c'.phase ≠ .stopped → c.phase ≠ .stopped ∧ c'.timers = c.timers)
    (hbag : ls.foldlM (Bag.step ring) c.bag = some { c.bag with srvs := c'.srvs }) :
    Goes ring c es ls c' := by
  have hclocks : c'.clocks = c.clocks := by rw [Checker.clocks, hregistered, Checker.clocks]
  have hpending : c'.pending = c.pending := by
    rw [Checker.pending, hregistered, hbatch, Checker.pending]
  refine ⟨hbooks, fun hnodup => ⟨hnodup, ?_, ?_, ?_, ?_, ?_⟩, fun hnodup => ?_⟩
  · rw [hclocks, hpending]
    exact (hk hnodup).fd h.fd
  · rw [hclocks, hpending]
    exact (hk hnodup).srv h.srv
  · rw [hclocks]
    exact (hk hnodup).clock (fun r hr => List.mem_append_right _ hr) h.clock
  · rw [hclocks, hbatch]
    exact h.batch
  · intro hne
    obtain ⟨hne, htimers⟩ := hphase hne
    rw [hclocks, htimers, h.timers hne]
  · rw [hbag, Checker.bag, Checker.bag, hpending,
      (hk hnodup).probes fun r hr => List.mem_append_left _ hr]

/-- A block that is given out is about nothing yet. -/
theorem keeps_update {l : List Resource} {p : Nat} {d : CheckData} (hnodup : c'.resources.Nodup)
    (hperm : c'.resources.Perm (.block p :: l)) (hsub : ∀ x ∈ c.resources, x ∈ l)
    (hheap : c'.heap = Function.update c.heap p d) (htimers : c.timers <+: c'.timers) :
    Keeps c c' (c.pending ++ c.clocks) := by
  refine ⟨fun r hr => ?_, htimers⟩
  have hp : .block p ∉ l := (List.nodup_cons.mp (hperm.nodup_iff.mp hnodup)).1
  rw [hheap]
  refine Function.update_of_ne ?_ _ _
  rintro rfl
  exact hp (hsub _ (mem_resources hr (List.mem_cons_of_mem _ List.mem_cons_self)))

/-! ## A new registration -/

section

variable {n : Registration} (hregistered : c'.registered = c.registered ++ [n])

include hregistered

theorem clocks_register : c'.clocks = c.clocks ++ if n.oneshot then [] else [n] := by
  rw [Checker.clocks, hregistered, List.filter_append, Checker.clocks]
  cases hone : n.oneshot <;> simp [hone]

theorem pending_register (hbatch : c'.batch = c.batch) :
    c'.pending = c.pending ++ if n.oneshot then [n] else [] := by
  rw [Checker.pending, hregistered, hbatch, ← List.append_assoc, List.filter_append, Checker.pending]
  cases hone : n.oneshot <;> simp [hone]

theorem perm_register (hbatch : c'.batch = c.batch) :
    (c'.pending ++ c'.clocks).Perm (n :: (c.pending ++ c.clocks)) := by
  rw [pending_register hregistered hbatch, clocks_register hregistered]
  cases n.oneshot with
  | true =>
      simp only [↓reduceIte, List.append_nil, List.append_assoc, List.singleton_append]
      exact List.perm_middle
  | false =>
      simp only [Bool.false_eq_true, ↓reduceIte, List.append_nil, ← List.append_assoc]
      exact List.perm_append_singleton n _

theorem mem_register (hbatch : c'.batch = c.batch) (hr : r ∈ c'.pending ++ c'.clocks) :
    r = n ∨ r ∈ c.pending ++ c.clocks :=
  List.mem_cons.mp ((perm_register hregistered hbatch).mem_iff.mp hr)

theorem resources_register (hbatch : c'.batch = c.batch) :
    c'.resources.Perm (.block n.ptr :: .fd n.fd ::
      (c'.kept ++ (c.pending ++ c.clocks).flatMap Registration.resources)) := by
  have hregs := (perm_register hregistered hbatch).flatMap_right Registration.resources
  refine (hregs.append_left c'.kept).trans ?_
  refine (List.perm_append_comm_assoc c'.kept n.resources _).trans ?_
  exact .swap _ _ _

/-- A step that adds a registration and fills its block. -/
theorem Goes.of_register {es : List (Entry Resource)} {ls : List Label} {d : CheckData}
    (h : c.Sound) (hbatch : c'.batch = c.batch)
    (hheap : c'.heap = Function.update c.heap n.ptr d) (hd : d.fd = n.fd)
    (hbooks : Books c.resources es c'.resources) (hkept : ∀ x ∈ c.kept, x ∈ c'.kept)
    (htimers : c.timers <+: c'.timers) (hsrv : d.srv < c'.timers.length)
    (hclock : n.oneshot = false → c'.timers[d.srv]? = some n.fd)
    (hphase : c'.phase ≠ .stopped → c.phase ≠ .stopped ∧
      c'.timers = c.timers ++ if n.oneshot then [] else [n.fd])
    (hbag : ls.foldlM (Bag.step ring) c.bag = some ⟨c'.srvs,
      c.bag.pending + ↑((if n.oneshot then [d] else []).map CheckData.probe)⟩) :
    Goes ring c es ls c' := by
  have hk (hnodup : c'.resources.Nodup) : Keeps c c' (c.pending ++ c.clocks) := by
    refine keeps_update hnodup (resources_register hregistered hbatch) ?_ hheap htimers
    intro x hx
    rcases List.mem_append.mp hx with hx | hx
    · exact List.mem_cons_of_mem _ (List.mem_append_left _ (hkept x hx))
    · exact List.mem_cons_of_mem _ (List.mem_append_right _ hx)
  have hnew : c'.heap n.ptr = d := by rw [hheap, Function.update_self]
  refine ⟨hbooks, fun hnodup => ⟨hnodup, ?_, ?_, ?_, ?_, ?_⟩, fun hnodup => ?_⟩
  · intro r hr
    rcases mem_register hregistered hbatch hr with rfl | hr
    · rw [hnew, hd]
    · exact (hk hnodup).fd h.fd r hr
  · intro r hr
    rcases mem_register hregistered hbatch hr with rfl | hr
    · rw [hnew]
      exact hsrv
    · exact (hk hnodup).srv h.srv r hr
  · intro r hr
    rw [clocks_register hregistered] at hr
    rcases List.mem_append.mp hr with hr | hr
    · exact (hk hnodup).clock (fun r hr => List.mem_append_right _ hr) h.clock r hr
    · cases hone : n.oneshot with
      | true => simp [hone] at hr
      | false =>
          obtain rfl : r = n := by simpa [hone] using hr
          rw [hnew]
          exact hclock hone
  · intro r hr hone
    rw [hbatch] at hr
    rw [clocks_register hregistered]
    exact List.mem_append_left _ (h.batch r hr hone)
  · intro hne
    obtain ⟨hne, htimers⟩ := hphase hne
    rw [clocks_register hregistered, htimers, h.timers hne, List.map_append]
    cases n.oneshot <;> rfl
  · rw [hbag]
    simp only [Checker.bag]
    rw [pending_register hregistered hbatch, List.map_append, ← Multiset.coe_add,
      (hk hnodup).probes fun r hr => List.mem_append_left _ hr]
    cases n.oneshot with
    | true => simp [hnew]
    | false => rfl

end

/-! ## The beginning -/

/-- The checker stops, and what it holds stays open. -/
theorem Goes.stop (h : c.Sound) : Goes ring c [] [] { c with phase := .stopped } := by
  refine .of_still h rfl rfl (.refl _) (fun _ => ⟨fun _ _ => rfl, List.prefix_refl _⟩) ?_ rfl
  exact fun hstopped => absurd rfl hstopped

theorem Goes.crash (h : c.Sound) : Goes ring c [] [] c.crash := by
  refine .of_still h rfl rfl (.refl _) (fun _ => ⟨fun _ _ => rfl, List.prefix_refl _⟩) ?_ rfl
  exact fun hstopped => absurd rfl hstopped

theorem Goes.create (h : c.Sound) (hphase : c.phase = .create) (fd : Option Proxy.Fd) :
    Goes ring c (c.calls (.create fd)) [] (c.create fd) := by
  cases fd with
  | none => exact .stop h
  | some fd =>
      refine .of_still h rfl rfl (.alloc _ _) (fun _ => ⟨fun _ _ => rfl, List.prefix_refl _⟩) ?_ rfl
      exact fun _ => ⟨hphase ▸ nofun, rfl⟩

/-- The timer runs and has a block. -/
theorem Goes.addTimer_block (h : c.Sound) (hne : c.phase ≠ .stopped) (fd : Proxy.Fd) (ptr : Nat)
    (added : Bool) :
    Goes ring c [.alloc (.fd fd), .alloc (.block ptr)] [.reset c.timers.length]
      (c.addTimer (some fd) true (some ptr) added) := by
  have hbooks := (Books.alloc c.resources (.fd fd)).trans (.alloc _ (.block ptr))
  cases added with
  | false =>
      refine .of_still h rfl rfl (hbooks.trans_perm (.swap _ _ _)) ?_ ?_ rfl
      · intro hnodup
        refine keeps_update hnodup (.swap _ _ _) (fun x hx => List.mem_cons_of_mem _ hx) rfl ?_
        exact List.prefix_append _ _
      · exact fun hstopped => absurd rfl hstopped
  | true =>
      have hregistered : (c.addTimer (some fd) true (some ptr) true).registered =
          c.registered ++ [⟨fd, ptr, false⟩] := rfl
      have htimers : (c.addTimer (some fd) true (some ptr) true).timers = c.timers ++ [fd] := rfl
      refine .of_register (d := { c.heap ptr with srv := c.timers.length, fd := fd })
        hregistered h rfl rfl rfl ?_ (fun x hx => hx) ?_ ?_ ?_ (fun _ => ⟨hne, rfl⟩) ?_
      · exact hbooks.trans_perm (resources_register hregistered rfl).symm
      · exact htimers ▸ List.prefix_append _ _
      · simp [htimers]
      · simp [htimers]
      · simp [Bag.step]
        rfl

theorem Goes.addTimer (h : c.Sound) (hphase : c.phase = .init) (fd : Option Proxy.Fd)
    (settime : Bool) (ptr : Option Nat) (added : Bool) :
    Goes ring c (c.calls (.addTimer fd settime ptr added)) [.reset c.timers.length]
      (c.addTimer fd settime ptr added) := by
  have hne : c.phase ≠ .stopped := hphase ▸ nofun
  cases fd with
  | none =>
      refine .of_still h rfl rfl (.refl _) (fun _ => ⟨fun _ _ => rfl, List.prefix_refl _⟩) ?_ rfl
      exact fun hstopped => absurd rfl hstopped
  | some fd =>
      cases settime with
      | false =>
          refine .of_still h rfl rfl (.alloc _ _) (fun _ => ⟨fun _ _ => rfl, ?_⟩) ?_ rfl
          · exact List.prefix_append _ _
          · exact fun hstopped => absurd rfl hstopped
      | true =>
          cases ptr with
          | none =>
              refine .of_still h rfl rfl (.alloc _ _) (fun _ => ⟨fun _ _ => rfl, ?_⟩) ?_ rfl
              · exact List.prefix_append _ _
              · exact fun hstopped => absurd rfl hstopped
          | some ptr => exact .addTimer_block h hne fd ptr added

/-! ## Waiting -/

/-- The events that are one-shot and what stays armed are what was armed. -/
theorem perm_wait {rs evs : List Registration} (hrs : (rs.filter (·.oneshot)).Nodup)
    (hevs : evs.Nodup) (hsub : ∀ r ∈ evs, r ∈ rs) :
    ((evs ++ rs.filter fun r => !(r.oneshot && evs.contains r)).filter (·.oneshot)).Perm
      (rs.filter (·.oneshot)) := by
  have hfired : (evs.filter (·.oneshot)).Perm ((rs.filter (·.oneshot)).filter evs.contains) := by
    refine (List.perm_ext_iff_of_nodup (hevs.filter _) (hrs.filter _)).mpr fun r => ?_
    simp only [List.mem_filter, List.contains_iff_mem]
    exact ⟨fun h => ⟨⟨hsub r h.1, h.2⟩, h.1⟩, fun h => ⟨h.2, h.1.2⟩⟩
  have hrest : (rs.filter fun r => !(r.oneshot && evs.contains r)).filter (·.oneshot) =
      (rs.filter (·.oneshot)).filter fun r => !evs.contains r := by
    rw [List.filter_filter, List.filter_filter]
    refine List.filter_congr fun r _ => ?_
    cases r.oneshot <;> simp
  rw [List.filter_append, hrest]
  exact (hfired.append_right _).trans (List.filter_append_perm _ _)

/-- A step that only moves registrations. -/
theorem Goes.of_perm (h : c.Sound) (hclocks : c'.clocks = c.clocks)
    (hpending : c'.pending.Perm c.pending) (hheap : c'.heap = c.heap)
    (htimers : c'.timers = c.timers) (hkept : c'.kept = c.kept) (hsrvs : c'.srvs = c.srvs)
    (hbatch : ∀ r ∈ c'.batch, r.oneshot = false → r ∈ c.clocks)
    (hphase : c'.phase ≠ .stopped → c.phase ≠ .stopped) : Goes ring c [] [] c' := by
  have hregs : (c'.pending ++ c'.clocks).Perm (c.pending ++ c.clocks) := by
    rw [hclocks]
    exact hpending.append_right _
  have hresources : c.resources.Perm c'.resources := by
    rw [Checker.resources, Checker.resources, hkept]
    exact ((hregs.flatMap_right _).append_left _).symm
  refine ⟨.perm hresources, fun hnodup => ⟨hnodup, ?_, ?_, ?_, ?_, ?_⟩, fun _ => ?_⟩
  · intro r hr
    rw [hheap]
    exact h.fd r (hregs.mem_iff.mp hr)
  · intro r hr
    rw [hheap, htimers]
    exact h.srv r (hregs.mem_iff.mp hr)
  · rw [hclocks, hheap, htimers]
    exact h.clock
  · rw [hclocks]
    exact hbatch
  · intro hne
    rw [hclocks, htimers]
    exact h.timers (hphase hne)
  · have hprobes := Multiset.coe_eq_coe.mpr (hpending.map fun r => (c.heap r.ptr).probe)
    simp only [Checker.bag, hsrvs, hheap, hprobes]
    rfl

theorem Goes.wait {evs : List Registration} (h : c.Sound) (hbatch : c.batch = [])
    (hevs : evs.Nodup) (hsub : ∀ r ∈ evs, r ∈ c.registered) :
    Goes ring c [] [] { c with
      registered := c.registered.filter fun r => !(r.oneshot && evs.contains r)
      batch := evs } := by
  have hpending : c.pending = c.registered.filter (·.oneshot) := by
    rw [Checker.pending, hbatch, List.nil_append]
  have hregs := nodup_of_flatMap (fun _ => List.cons_ne_nil _ _) (List.nodup_append.mp h.nodup).2.1
  have hnodup := (List.nodup_append.mp hregs).1
  refine .of_perm h ?_ ?_ rfl rfl rfl rfl ?_ id
  · simp only [Checker.clocks]
    rw [List.filter_filter]
    refine List.filter_congr fun r _ => ?_
    cases r.oneshot <;> simp
  · rw [hpending] at hnodup ⊢
    exact perm_wait hnodup hevs hsub
  · exact fun r hr hone => List.mem_filter.mpr ⟨hsub r hr, by simp [hone]⟩

/-! ## A probe begins -/

theorem books_checkTcp (l : List Resource) (as : List Attempt) :
    Books l (checkTcpCalls as) (opened as ++ l) := by
  induction as with
  | nil => exact .refl l
  | cons a as ih =>
      cases a with
      | noSocket => exact ih
      | connecting fd => exact .alloc l (.fd fd)
      | connected fd => exact (Books.alloc l (.fd fd)).trans (.free (.refl _))
      | disconnected fd => exact (Books.alloc l (.fd fd)).trans (.free (.refl _))

theorem opened_of_pos {as : List Attempt} (h : checkTcp as > 0) :
    opened as = [.fd (asFd (checkTcp as))] := by
  induction as with
  | nil => cases h
  | cons a as ih =>
      cases a with
      | noSocket => exact ih h
      | connecting fd =>
          have hfd : asFd (checkTcp (.connecting fd :: as)) = fd :=
            Fin.ext (Nat.mod_eq_of_lt fd.isLt)
          rw [hfd]
          rfl
      | connected fd => cases h
      | disconnected fd => cases h

/-- A probe that has only begun says nothing about the server. -/
theorem modify_of_pos {ret : Int} (h : ret > 0) (srvs : List Srv) (i : Nat) :
    srvs.modify i (Srv.checkTcpCycle (.timer ret)) = srvs := by
  have hid : Srv.checkTcpCycle (.timer ret) = id := by
    funext s
    have h0 : ret ≠ 0 := by omega
    have h2 : ret ≠ -2 := by omega
    simp [Srv.checkTcpCycle, Probe.verdict, h0, h2]
  rw [hid, List.modify_id]

theorem Goes.timerEvent {srv : Nat} (h : c.Sound) (hsrv : srv < c.timers.length) :
    Goes ring c (timerCalls a) (timerLabels srv a) (c.timerEvent srv a) := by
  obtain ⟨readOk, list, attempts, ptr, now, added, err⟩ := a
  cases readOk with
  | false => exact .stop h
  | true =>
      cases list with
      | none => exact .crash h
      | some list =>
          have hbooks := (Books.alloc c.resources (.block list)).trans (books_checkTcp _ attempts)
          by_cases hret : checkTcp attempts > 0
          · rw [opened_of_pos hret] at hbooks
            simp only [timerCalls, timerLabels, Checker.timerEvent, hret, ↓reduceIte,
              modify_of_pos hret, Option.isSome_some, and_self]
            generalize asFd (checkTcp attempts) = fd at hbooks ⊢
            cases ptr with
            | none =>
                refine .of_still h rfl rfl ?_ (fun _ => ⟨fun _ _ => rfl, List.prefix_refl _⟩) ?_ rfl
                · simp only [mallocCalls, Option.toList_none, List.map_nil, List.append_nil]
                  exact hbooks
                · exact fun hstopped => absurd rfl hstopped
            | some ptr =>
                have hbooks := hbooks.trans (.alloc _ (.block ptr))
                cases added with
                | true =>
                    simp only [↓reduceIte]
                    refine .of_register (n := ⟨fd, ptr, true⟩) (d := ⟨srv, fd, now⟩) rfl h rfl rfl
                      rfl ?_ ?_ (List.prefix_refl _) hsrv nofun ?_ ?_
                    · refine hbooks.trans_perm (List.Perm.symm ?_)
                      exact resources_register (c := c) (n := ⟨fd, ptr, true⟩) rfl rfl
                    · exact fun x hx => List.mem_cons_of_mem _ hx
                    · exact fun hne => ⟨hne, (List.append_nil _).symm⟩
                    · have hadd := Multiset.add_comm c.bag.pending {(srv, now)}
                      exact congrArg (fun m => some (Bag.mk c.srvs m)) hadd.symm
                | false =>
                    have hperm : (Resource.block ptr :: .fd fd :: .block list :: c.resources).Perm
                        (.fd fd :: .block ptr :: .block list :: c.resources) := .swap _ _ _
                    simp only [Bool.false_eq_true, and_false, ↓reduceIte]
                    refine .of_still h rfl rfl (hbooks.trans_perm hperm) ?_ ?_ rfl
                    · intro hnodup
                      refine keeps_update hnodup hperm.symm ?_ rfl (List.prefix_refl _)
                      exact fun x hx => List.mem_cons_of_mem _ (List.mem_cons_of_mem _ hx)
                    · exact fun hstopped => absurd rfl hstopped
          · simp only [timerCalls, timerLabels, Checker.timerEvent, hret, ↓reduceIte,
              List.append_nil, Option.isSome_some, and_self]
            refine .of_still h rfl rfl ?_ (fun _ => ⟨fun _ _ => rfl, List.prefix_refl _⟩) ?_ rfl
            · refine hbooks.trans_perm ?_
              simp only [Checker.resources, List.append_assoc, List.cons_append]
              exact .refl _
            · exact fun hne => ⟨hne, rfl⟩

/-! ## A probe ends -/

theorem Goes.read {es : List (Entry Resource)} {ls : List Label} (h : Goes ring c es ls c')
    (xs : List Resource) (hxs : ∀ x ∈ xs, x ∈ c.resources) :
    Goes ring c (xs.map .read ++ es) ls c' :=
  ⟨(Books.readAll xs hxs).trans h.books, h.sound, h.bag⟩

section

variable {batch : List Registration} (hbatch : c.batch = r :: batch)

include hbatch

theorem pending_pop : c.pending =
    (if r.oneshot then [r] else []) ++ Checker.pending { c with batch := batch } := by
  rw [Checker.pending, hbatch, List.cons_append, List.filter_cons]
  cases r.oneshot <;> rfl

theorem Checker.Sound.pop (h : c.Sound) : Checker.Sound { c with batch := batch } := by
  have hpending := pending_pop hbatch
  have hsub : (Checker.pending { c with batch := batch }).Sublist c.pending := by
    rw [hpending]
    exact List.sublist_append_right _ _
  have hregs := hsub.append_right c.clocks
  refine ⟨h.nodup.sublist ((hregs.flatMap Registration.resources).append_left _), ?_, ?_, ?_,
    ?_, ?_⟩
  · exact fun q hq => h.fd q (hregs.subset hq)
  · exact fun q hq => h.srv q (hregs.subset hq)
  · exact h.clock
  · exact fun q hq => h.batch q (hbatch ▸ List.mem_cons_of_mem r hq)
  · exact h.timers

theorem Goes.connectEvent (h : c.Sound) (hone : r.oneshot = true) :
    Goes ring c [.free (.fd (c.heap r.ptr).fd), .free (.block r.ptr)]
      [.finish (c.heap r.ptr).srv (c.heap r.ptr).startTime a.err a.now]
      (Checker.connectEvent { c with batch := batch } (c.heap r.ptr) a) := by
  have hpop := h.pop hbatch
  have hr : r ∈ c.pending ++ c.clocks := mem_of_batch h (hbatch ▸ List.mem_cons_self)
  have hpending : c.pending = r :: Checker.pending { c with batch := batch } := by
    rw [pending_pop hbatch, if_pos hone]
    rfl
  have hperm : c.resources.Perm (.fd r.fd :: .block r.ptr ::
      Checker.resources { c with batch := batch }) := by
    simp only [Checker.resources, hpending, List.cons_append, List.flatMap_cons]
    exact List.perm_append_comm_assoc c.kept r.resources _
  -- no other registration has the descriptor of the probe
  have hother : ∀ q ∈ c.registered, q.fd ≠ r.fd := by
    intro q hq heq
    have hnew := (List.nodup_cons.mp (hperm.nodup_iff.mp h.nodup)).1
    have hreg := mem_of_registered (c := { c with batch := batch }) hq
    exact hnew (List.mem_cons_of_mem _ (mem_resources hreg (heq ▸ List.mem_cons_self)))
  have hregistered : c.registered.filter (·.fd ≠ (c.heap r.ptr).fd) = c.registered := by
    refine List.filter_eq_self.mpr fun q hq => ?_
    rw [h.fd r hr]
    exact decide_eq_true (hother q hq)
  have hbag : c.bag.pending =
      (c.heap r.ptr).probe ::ₘ (Checker.bag { c with batch := batch }).pending := by
    simp only [Checker.bag, hpending, List.map_cons, Multiset.cons_coe]
  unfold Checker.connectEvent
  simp only
  rw [hregistered]
  refine ⟨?_, fun hnodup => ⟨hnodup, hpop.fd, hpop.srv, hpop.clock, hpop.batch, hpop.timers⟩,
    fun _ => ?_⟩
  · rw [h.fd r hr]
    exact (Books.free hperm).trans (.free (.refl _))
  · have hmem : ((c.heap r.ptr).srv, (c.heap r.ptr).startTime) ∈ c.bag.pending :=
      hbag ▸ Multiset.mem_cons_self _ _
    have herase : c.bag.pending.erase ((c.heap r.ptr).srv, (c.heap r.ptr).startTime) =
        (Checker.bag { c with batch := batch }).pending := by
      rw [hbag]
      exact Multiset.erase_cons_head _ _
    simp only [List.foldlM_cons, List.foldlM_nil, Bag.step, hmem, ↓reduceIte, herase]
    rfl

theorem Goes.handle (h : c.Sound) (hphase : c.phase = .loop) :
    Goes ring c (c.handleCalls r a) (c.labels (.handle a))
      (Checker.handle { c with batch := batch } r a) := by
  have hne : c.phase ≠ .stopped := hphase ▸ nofun
  have hmem : r ∈ c.batch := hbatch ▸ List.mem_cons_self
  have hr := mem_of_batch h hmem
  have hreads : ∀ x ∈ [.block r.ptr, .fd (c.heap r.ptr).fd], x ∈ c.resources := by
    intro x hx
    rw [h.fd r hr] at hx
    exact mem_resources hr (by simpa [Registration.resources, or_comm] using hx)
  have htimer := isTimer_eq h hne hmem
  have htimer' : Checker.isTimer { c with batch := batch } (c.heap r.ptr) = !r.oneshot := htimer
  cases hone : r.oneshot with
  | true =>
      have hgoes : Goes ring c _ _ _ := Goes.connectEvent (a := a) hbatch h hone
      simp only [Checker.handle, Checker.handleCalls, Checker.labels, hbatch, htimer, htimer', hone,
        Bool.not_true, Bool.false_eq_true, ↓reduceIte]
      exact hgoes.read _ hreads
  | false =>
      have hpending := pending_pop hbatch
      simp only [hone, Bool.false_eq_true, ↓reduceIte, List.nil_append] at hpending
      have hresources : c.resources = Checker.resources { c with batch := batch } := by
        simp only [Checker.resources, hpending]
        rfl
      have hbag : c.bag = Checker.bag { c with batch := batch } := by
        simp only [Checker.bag, hpending]
      have hpop : Goes ring _ _ _ _ := Goes.timerEvent (a := a) (h.pop hbatch) (h.srv r hr)
      have hgoes := Goes.mk (hresources ▸ hpop.books) hpop.sound (hbag ▸ hpop.bag)
      simp only [Checker.handle, Checker.handleCalls, Checker.labels, hbatch, htimer, htimer', hone,
        Bool.not_false, ↓reduceIte]
      exact hgoes.read _ hreads

end

/-! ## Runs -/

theorem Goes.of_step {act : Action} (h : c.Sound) (hs : c.step ring act = some c') :
    Goes ring c (c.calls act) (c.labels act) c' := by
  cases act with
  | create fd =>
      simp only [Checker.step] at hs
      split at hs
      · next hphase => cases hs; exact .create h hphase fd
      · cases hs
  | addTimer fd settime ptr added =>
      simp only [Checker.step] at hs
      split at hs
      · next hphase => cases hs; exact .addTimer h hphase fd settime ptr added
      · cases hs
  | interrupted =>
      simp only [Checker.step] at hs
      split at hs
      · cases hs; exact ⟨.refl _, fun _ => h, fun _ => rfl⟩
      · cases hs
  | waitError =>
      simp only [Checker.step] at hs
      split at hs
      · cases hs; exact .stop h
      · cases hs
  | wait evs =>
      simp only [Checker.step] at hs
      split at hs
      · next hen => cases hs; exact .wait h hen.2.1 hen.2.2.1 hen.2.2.2.1
      · cases hs
  | handle a =>
      simp only [Checker.step] at hs
      split at hs
      · next r batch hphase hbatch =>
          cases hs
          have hgoes : Goes ring c _ _ _ := Goes.handle (a := a) hbatch h hphase
          unfold Checker.calls
          simp only [hbatch]
          exact hgoes
      · cases hs
  | passive e =>
      simp only [Checker.step] at hs
      split at hs
      · cases hs
      · cases hs
        refine .of_still h rfl rfl (.refl _) (fun _ => ⟨fun _ _ => rfl, List.prefix_refl _⟩) ?_ rfl
        exact fun hne => ⟨hne, rfl⟩

theorem run_goes {as : List Action} (h : c.Sound) (hrun : c.run ring as = some c')
    (hsane : Along Entry.next Entry.Sane c.resources.toFinset (c.trace ring as)) :
    Goes ring c (c.trace ring as) (c.history ring as) c' ∧ c'.resources.Nodup := by
  induction as generalizing c with
  | nil =>
      cases hrun
      exact ⟨⟨.refl _, fun _ => h, fun _ => rfl⟩, h.nodup⟩
  | cons a as ih =>
      obtain ⟨c₁, hs, hrun⟩ := Option.bind_eq_some_iff.mp hrun
      have hgoes := Goes.of_step h hs
      simp only [Checker.trace, Checker.history, hs] at hsane ⊢
      obtain ⟨hsane, hrest⟩ := along_append.mp hsane
      obtain ⟨-, hlive, hnodup⟩ := hgoes.books h.nodup hsane
      rw [hlive] at hrest
      obtain ⟨hgoes', hnodup'⟩ := ih (hgoes.sound hnodup) hrun hrest
      refine ⟨⟨hgoes.books.trans hgoes'.books, hgoes'.sound, fun hnodup' => ?_⟩, hnodup'⟩
      rw [List.foldlM_append, hgoes.bag hnodup]
      exact hgoes'.bag hnodup'

/-- Every descriptor and block that is used or given back is in use, and what is in use behind the run
is what the checker holds: the registrations, and what it never gives back. -/
theorem resources_of_checker (ring : List Point) (srvs : List Srv) (heap : Nat → CheckData)
    (as : List Action) (c : Checker) (hrun : (Checker.start srvs heap).run ring as = some c)
    (hsane : Along Entry.next Entry.Sane ∅ ((Checker.start srvs heap).trace ring as)) :
    Along Entry.next Entry.Legal ∅ ((Checker.start srvs heap).trace ring as) ∧
      ((Checker.start srvs heap).trace ring as).foldl Entry.next ∅ = c.resources.toFinset ∧
        c.resources.Nodup :=
  (run_goes (sound_start srvs heap) hrun hsane).1.books List.nodup_nil hsane

/-- A probe ends, the next one of the same server has its descriptor and its block, and then
`getaddrinfo` fails. -/
theorem resources_of_checker_reused :
    let conf : Conf := ⟨[49], 80, 1, 1, 10, 1, 0, some ⟨3, 1, 1⟩⟩
    let c := Checker.start (confParse (fun _ => default) [conf]) fun _ => ⟨0, 0, 0⟩
    let begins (now : UInt64) : Action := .handle ⟨true, some (40 + now.toNat),
      [.noSocket, .connecting 5], some 21, now, true, 0⟩
    let as : List Action := [.create (some 3), .addTimer (some 4) true (some 20) true,
      .wait [⟨4, 20, false⟩], begins 5, .wait [⟨5, 21, true⟩, ⟨4, 20, false⟩],
      .handle ⟨true, none, [], none, 6, true, 111⟩, begins 6,
      .wait [⟨4, 20, false⟩], .handle ⟨true, none, [], none, 9, true, 0⟩]
    ∃ c', c.run [] as = some c' ∧ c'.crashed = true ∧ c'.pending = [⟨5, 21, true⟩] ∧
      Along Entry.next Entry.Legal ∅ (c.trace [] as) ∧
      (c.trace [] as).foldl Entry.next ∅ = c'.resources.toFinset ∧ c'.resources.Nodup := by
  intro conf c begins as
  have hrun : (c.run [] as).map (fun c => (c.crashed, c.pending)) =
      some (true, [⟨5, 21, true⟩]) := by decide +kernel
  obtain ⟨c', hrun, heq⟩ := Option.map_eq_some_iff.mp hrun
  obtain ⟨hcrashed, hpending⟩ := Prod.mk.inj heq
  exact ⟨c', hrun, hcrashed, hpending, resources_of_checker [] _ _ as c' hrun (by decide +kernel)⟩

/-- The loop does with the probes what the bag does: each ends once, for the server that it is of, and
is judged by the time at which it began. -/
theorem bag_of_checker (ring : List Point) (srvs : List Srv) (heap : Nat → CheckData)
    (as : List Action) (c : Checker) (hrun : (Checker.start srvs heap).run ring as = some c)
    (hsane : Along Entry.next Entry.Sane ∅ ((Checker.start srvs heap).trace ring as)) :
    ((Checker.start srvs heap).history ring as).foldlM (Bag.step ring) ⟨srvs, 0⟩ = some c.bag := by
  obtain ⟨hgoes, hnodup⟩ := run_goes (sound_start srvs heap) hrun hsane
  exact hgoes.bag hnodup

/-- The probe that begins at 5 fails at 6, and the next one waits. -/
theorem bag_of_checker_reused :
    let conf : Conf := ⟨[49], 80, 1, 1, 10, 1, 0, some ⟨3, 1, 1⟩⟩
    let c := Checker.start (confParse (fun _ => default) [conf]) fun _ => ⟨0, 0, 0⟩
    let begins (now : UInt64) : Action := .handle ⟨true, some (40 + now.toNat),
      [.noSocket, .connecting 5], some 21, now, true, 0⟩
    let as : List Action := [.create (some 3), .addTimer (some 4) true (some 20) true,
      .wait [⟨4, 20, false⟩], begins 5, .wait [⟨5, 21, true⟩, ⟨4, 20, false⟩],
      .handle ⟨true, none, [], none, 6, true, 111⟩, begins 6]
    ∃ c', c.run [] as = some c' ∧ c'.srvs.map Srv.isDown = [true] ∧
      (c.history [] as).foldlM (Bag.step []) ⟨c.srvs, 0⟩ = some c'.bag := by
  intro conf c begins as
  have hrun : (c.run [] as).map (fun c => c.srvs.map Srv.isDown) = some [true] := by decide +kernel
  obtain ⟨c', hrun, hdown⟩ := Option.map_eq_some_iff.mp hrun
  exact ⟨c', hrun, hdown, bag_of_checker [] _ _ as c' hrun (by decide +kernel)⟩

end Umicat.Check
