import Umicat.Base.Modify
import Umicat.Base.Run
import Umicat.Upstream.Lemmas.Weight

/-!
# Quarantine of down servers

Runs of the balancer with a record, for each server, of the times at which it was marked down since
it was last marked up.
-/

namespace Umicat.Upstream

open Umicat.Base

/-! ## Marks -/

/-- A server was marked down at `time`, by the checker if `active` and by a failed connection
otherwise. -/
structure Mark where
  time : UInt64
  active : Bool
deriving Repr, DecidableEq

structure Ghost where
  srvs : List Srv
  marks : Nat → List Mark
  clock : UInt64

def Srv.marksAfter (s : Srv) (ms : List Mark) : Event → List Mark
  | .select _ => ms
  | .connectOk _ _ => []
  | .connectFail _ now => if (s.countFail now).failed now then ⟨now, false⟩ :: ms else ms
  | .check _ now p =>
      match s.isDown, (s.checkTcpCycle p).isDown with
      | false, true => ⟨now, true⟩ :: ms
      | true, false => []
      | _, _ => ms

def Ghost.step (ring : List Point) (g : Ghost) (e : Event) : Ghost where
  srvs := (Upstream.step ring g.srvs e).2
  marks i :=
    match g.srvs[i]? with
    | some s => if e.target = some i then s.marksAfter (g.marks i) e else g.marks i
    | none => g.marks i
  clock := e.times.getLastD g.clock

def Ghost.start (mem : Nat → Srv) (cs : List Conf) : Ghost := ⟨confParse mem cs, fun _ => [], 0⟩

/-- The clock does not run backwards. -/
def Ghost.Timely (g : Ghost) (e : Event) : Prop := (g.clock :: e.times).Pairwise (· ≤ ·)

instance instDecidableTimely (g : Ghost) (e : Event) : Decidable (g.Timely e) :=
  inferInstanceAs (Decidable ((g.clock :: e.times).Pairwise (· ≤ ·)))

def Srv.During (s : Srv) (m : Mark) (now : UInt64) : Prop :=
  s.isFallback = true ∧ m.time ≤ now ∧ now.toNat < m.time.toNat + s.failTimeout.toNat

/-- Server `i` must not be selected at `now`: it is in quarantine and another server is up. -/
def Ghost.Held (g : Ghost) (now : UInt64) (i : Nat) : Prop :=
  (∃ s m, g.srvs[i]? = some s ∧ m ∈ g.marks i ∧ s.During m now) ∧
    ∃ j t, j ≠ i ∧ g.srvs[j]? = some t ∧ t.isDown = false

/-- No selection by round robin, least connections or at random returns a server in quarantine. -/
def Ghost.Quarantined (ring : List Point) (g : Ghost) : Event → Prop
  | .select c => ∀ now i, c.times.getLast? = some now → (choose ring g.srvs c).1 = some i →
      ¬g.Held now i
  | _ => True

/-! ## The condition -/

/-- A server that the checker took down less than `fail_timeout` ago also failed by its
`last_fail_time` less than `fail_timeout` ago. -/
def Ghost.Covered (g : Ghost) (now : UInt64) : Prop :=
  ∀ i s m, g.srvs[i]? = some s → m ∈ g.marks i → m.active = true → s.During m now →
    now - s.lastFailTime < s.failTimeout

/-- The steps at which quarantine is kept: failures of the checker are covered, and the default
index 0 is not returned for want of another server. -/
def Ghost.Sheltered (g : Ghost) : Event → Prop
  | .select (.roundRobin now) => g.Covered now ∧
      (g.Held now 0 → ∃ t ∈ g.srvs, t.skipped now = false ∧ 0 < (t.credit now).currentWeight)
  | .select (.leastConn now) => g.Covered now ∧
      (g.Held now 0 → ∃ t ∈ g.srvs, t.skipped now = false ∧ t.connectionN < maxIntT)
  | .select (.random _ now' _) => g.Covered now'
  | _ => True

/-! ## Servers -/

/-- A marked server is down, and a failed connection that marked it is not after its
`last_fail_time`. -/
structure Srv.Kept (s : Srv) (ms : List Mark) (clock : UInt64) : Prop where
  down : ms ≠ [] → s.isDown = true
  passive : ∀ m ∈ ms, m.active = false → m.time ≤ s.lastFailTime
  past : s.lastFailTime ≤ clock
  nonneg : 0 ≤ s.effectiveWeight

variable {s : Srv} {ms : List Mark} {clock now : UInt64}

theorem Srv.Kept.later (h : s.Kept ms clock) (hle : clock ≤ now) : s.Kept ms now :=
  ⟨h.down, h.passive, h.past.trans hle, h.nonneg⟩

theorem Srv.Kept.quiet {s' : Srv} (h : s.Kept ms clock) (hq : Quiet s s') : s'.Kept ms clock :=
  ⟨fun hne => hq.isDown.trans (h.down hne), fun m hm ha => hq.lastFailTime ▸ h.passive m hm ha,
    hq.lastFailTime ▸ h.past, hq.nonneg h.nonneg⟩

theorem Srv.Kept.skipped {m : Mark} (h : s.Kept ms clock) (hle : clock ≤ now) (hm : m ∈ ms)
    (hd : s.During m now) (hc : m.active = true → now - s.lastFailTime < s.failTimeout) :
    s.skipped now = true := by
  have hdown : s.isDown = true := h.down (List.ne_nil_of_mem hm)
  simp only [Srv.skipped, hdown, hd.1, Bool.and_self, Bool.true_and, decide_eq_true_eq]
  cases ha : m.active with
  | true => exact hc ha
  | false =>
      have hfirst := UInt64.le_iff_toNat_le.mp (h.passive m hm ha)
      have hlast := h.past.trans hle
      have hnat := UInt64.le_iff_toNat_le.mp hlast
      rw [UInt64.lt_iff_toNat_lt, UInt64.toNat_sub_of_le _ _ hlast]
      have := hd.2.2
      omega

theorem Srv.Kept.connectOk (h : s.Kept ms clock) : s.connectOk.Kept [] clock := by
  have hlast : s.connectOk.lastFailTime = s.lastFailTime := by rw [s.connectOk_eq]
  exact ⟨nofun, nofun, hlast ▸ h.past, Srv.nonneg_connectOk h.nonneg⟩

theorem Srv.Kept.countFail (h : s.Kept ms clock) (hle : clock ≤ now) :
    (s.countFail now).Kept ms now := by
  unfold Srv.countFail
  split
  · exact ⟨h.down, fun m hm ha => ((h.passive m hm ha).trans h.past).trans hle, le_rfl,
      s.lowered_nonneg⟩
  · exact ⟨h.down, h.passive, h.past.trans hle, s.lowered_nonneg⟩

theorem Srv.Kept.connectFail (h : s.Kept ms clock) (hle : clock ≤ now) (i : Nat) :
    (s.connectFail now).Kept (s.marksAfter ms (.connectFail i now)) now := by
  have hcount := h.countFail hle
  simp only [Srv.connectFail, Srv.marksAfter]
  split
  · refine ⟨fun _ => rfl, fun m hm ha => ?_, le_rfl, le_rfl⟩
    rcases List.mem_cons.mp hm with rfl | hm
    · exact le_rfl
    · exact (hcount.passive m hm ha).trans hcount.past
  · exact hcount

theorem Srv.Kept.check (h : s.Kept ms clock) (hle : clock ≤ now) (i : Nat) (p : Probe) :
    (s.checkTcpCycle p).Kept (s.marksAfter ms (.check i now p)) now := by
  have hlast := s.lastFailTime_checkTcpCycle p
  have hnonneg : 0 ≤ (s.checkTcpCycle p).effectiveWeight := Srv.nonneg_checkTcpCycle p h.nonneg
  have hpast : (s.checkTcpCycle p).lastFailTime ≤ now := hlast ▸ h.past.trans hle
  simp only [Srv.marksAfter]
  cases hd : s.isDown with
  | false =>
      cases hd' : (s.checkTcpCycle p).isDown with
      | false =>
          have hnil : ms = [] := by
            by_contra hne
            exact absurd (hd.symm.trans (h.down hne)) (by simp)
          subst hnil
          exact ⟨nofun, nofun, hpast, hnonneg⟩
      | true =>
          refine ⟨fun _ => hd', fun m hm ha => ?_, hpast, hnonneg⟩
          rcases List.mem_cons.mp hm with rfl | hm
          · cases ha
          · exact hlast ▸ h.passive m hm ha
  | true =>
      cases hd' : (s.checkTcpCycle p).isDown with
      | false => exact ⟨nofun, nofun, hpast, hnonneg⟩
      | true => exact ⟨fun _ => hd', fun m hm ha => hlast ▸ h.passive m hm ha, hpast, hnonneg⟩

/-! ## Runs -/

def Ghost.Kept (g : Ghost) : Prop :=
  ∀ (i : Nat) (s : Srv), g.srvs[i]? = some s → s.Kept (g.marks i) g.clock

theorem Ghost.start_kept {mem : Nat → Srv} {cs : List Conf} (hw : ∀ c ∈ cs, 0 ≤ c.weight.toInt) :
    (Ghost.start mem cs).Kept := by
  intro i s hs
  simp only [Ghost.start, confParse, List.getElem?_mapIdx, Option.map_eq_some_iff] at hs
  obtain ⟨c, hc, rfl⟩ := hs
  exact ⟨nofun, nofun, le_rfl, hw c (List.mem_of_getElem? hc)⟩

theorem Ghost.Timely.le {g : Ghost} {e : Event} (h : g.Timely e) :
    ∀ t ∈ e.times, g.clock ≤ t :=
  (List.pairwise_cons.mp h).1

theorem Ghost.Timely.clock_le {g : Ghost} {e : Event} (h : g.Timely e) :
    g.clock ≤ e.times.getLastD g.clock := by
  cases ht : e.times.getLast? with
  | none => simp [List.getLastD_eq_getLast?, ht]
  | some t =>
      simp only [List.getLastD_eq_getLast?, ht, Option.getD_some]
      exact h.le t (List.mem_of_getLast? ht)

theorem Ghost.Kept.step (ring : List Point) {g : Ghost} {e : Event} (h : g.Kept)
    (ht : g.Timely e) : (g.step ring e).Kept := by
  intro i s' hs'
  have hclock := ht.clock_le
  obtain ⟨s, hs, ha⟩ := acted_of_after hs'
  cases ha with
  | select htouched =>
      simpa [Ghost.step, hs, Event.target] using ((h i s hs).quiet htouched.quiet).later hclock
  | connectOk =>
      simpa [Ghost.step, hs, Event.target, Srv.marksAfter] using (h i s hs).connectOk.later hclock
  | @connectFail now =>
      simpa [Ghost.step, hs, Event.target, Event.times] using
        (h i s hs).connectFail (ht.le now (by simp [Event.times])) i
  | @check now p =>
      simpa [Ghost.step, hs, Event.target, Event.times] using
        (h i s hs).check (ht.le now (by simp [Event.times])) i p
  | other hne => simpa [Ghost.step, hs, hne] using (h i s' hs).later hclock

theorem Ghost.Held.get {g : Ghost} {now : UInt64} {i : Nat} (h : g.Held now i) :
    ∃ s, g.srvs[i]? = some s := by
  obtain ⟨⟨s, _, hs, _⟩, _⟩ := h
  exact ⟨s, hs⟩

theorem Ghost.Kept.skipped {g : Ghost} {now : UInt64} {i : Nat} {s : Srv} (h : g.Kept)
    (hle : g.clock ≤ now) (hc : g.Covered now) (hheld : g.Held now i) (hs : g.srvs[i]? = some s) :
    s.skipped now = true := by
  obtain ⟨⟨t, m, ht, hm, hd⟩, _⟩ := hheld
  cases hs.symm.trans ht
  exact (h i s hs).skipped hle hm hd fun ha => hc i s m hs hm ha hd

/-- A random selection does not return a server that is skipped at its second clock reading. -/
theorem Ghost.Kept.random_open {g : Ghost} {first now : UInt64} {rand : Int} {i : Nat} {s : Srv}
    {srvs' : List Srv} (h : g.Kept) (hfirst : g.clock ≤ first) (hnow : first ≤ now)
    (hget : upstreamRandomGet first now rand g.srvs = some (i, srvs')) (hs : g.srvs[i]? = some s) :
    s.skipped now = false := by
  have hkept (t : Srv) (ht : t ∈ g.srvs) : 0 ≤ t.effectiveWeight ∧ t.lastFailTime ≤ first := by
    obtain ⟨j, hj⟩ := List.mem_iff_getElem?.mp ht
    exact ⟨(h j t hj).nonneg, (h j t hj).past.trans hfirst⟩
  exact Upstream.random_open (fun t ht => (hkept t ht).1) (fun t ht => (hkept t ht).2) hnow hget hs

theorem Ghost.Kept.quarantined (ring : List Point) {g : Ghost} {e : Event} (h : g.Kept)
    (ht : g.Timely e) (hshelter : g.Sheltered e) : g.Quarantined ring e := by
  cases e with
  | select c =>
      intro now i hnow hi hheld
      obtain ⟨s, hs⟩ := hheld.get
      cases c with
      | roundRobin now =>
          cases hnow
          cases hi
          have hskip := h.skipped (ht.le now (by simp [Event.times, Choice.times])) hshelter.1 hheld hs
          obtain ⟨h0, hno⟩ := roundRobin_skipped hs hskip
          obtain ⟨t, htmem, hopen, hpos⟩ := hshelter.2 (h0 ▸ hheld)
          exact hno t htmem hopen hpos
      | leastConn now =>
          cases hnow
          cases hi
          have hskip := h.skipped (ht.le now (by simp [Event.times, Choice.times])) hshelter.1 hheld hs
          obtain ⟨h0, hno⟩ := leastConn_skipped hs hskip
          obtain ⟨t, htmem, hopen, hlt⟩ := hshelter.2 (h0 ▸ hheld)
          exact hno t htmem hopen hlt
      | random first now rand =>
          cases hnow
          have htimes : (g.clock :: [first, now]).Pairwise (· ≤ ·) := ht
          simp only [List.pairwise_cons, List.mem_cons, List.not_mem_nil, or_false, forall_eq_or_imp,
            forall_eq] at htimes
          obtain ⟨⟨hfirst, hle⟩, hnow, _⟩ := htimes
          have hskip := h.skipped hle hshelter hheld hs
          simp only [choose] at hi
          split at hi
          · next b srvs' hget =>
              cases hi
              have hopen := h.random_open hfirst hnow hget hs
              exact absurd (hskip.symm.trans hopen) (by simp)
          · cases hi
      | ipHash hash => cases hnow
      | heuristic => cases hnow
  | connectOk j now => trivial
  | connectFail j now => trivial
  | check j now p => trivial

/-- Quarantine is kept along every run whose steps are sheltered. -/
theorem quarantine (ring : List Point) (mem : Nat → Srv) {cs : List Conf}
    (hw : ∀ c ∈ cs, 0 ≤ c.weight.toInt) (es : List Event)
    (h : Along (Ghost.step ring) (fun g e => g.Timely e ∧ g.Sheltered e) (Ghost.start mem cs) es) :
    Along (Ghost.step ring) (Ghost.Quarantined ring) (Ghost.start mem cs) es :=
  h.of_invariant (fun _ _ hk hp => hk.step ring hp.1)
    (fun _ _ hk hp => hk.quarantined ring hp.1 hp.2) (Ghost.start_kept hw)

/-- Server 0 fails at time 100; round robin at time 105 is sheltered by server 1. -/
theorem quarantine_one_failure :
    let c : Conf := ⟨[49], 80, 1, 1, 10, 1, 0, none⟩
    Along (Ghost.step []) (Ghost.Quarantined []) (Ghost.start (fun _ => default) [c, c])
      [.connectFail 0 100, .select (.roundRobin 105)] := by
  intro c
  refine quarantine [] (fun _ => default) (by decide) _
    ⟨⟨by decide, trivial⟩, ⟨by decide, ?_, fun _ => ?_⟩, trivial⟩
  · intro i s m _ hm ha
    simp only [Ghost.step, Ghost.start] at hm
    split at hm
    · split at hm
      · simp only [Srv.marksAfter] at hm
        split at hm
        · cases List.mem_singleton.mp hm
          cases ha
        · cases hm
      · cases hm
    · cases hm
  · exact ⟨confParseUpstream default c, by decide, by decide, by decide⟩

/-- The checker takes server 0 down at time 1000 and round robin returns it at once, although server 1
is up: `last_fail_time` was never set. -/
theorem quarantine_broken_by_checker :
    let c : Conf := ⟨[49], 80, 1, 1, 10, 1, 0, some ⟨5, 1, 1⟩⟩
    ¬Along (Ghost.step []) (Ghost.Quarantined []) (Ghost.start (fun _ => default) [c, c])
      [.check 0 1000 (.timer (-2)), .select (.roundRobin 1000)] := by
  intro c h
  refine h.2.1 1000 0 rfl (by decide) ⟨⟨_, ⟨1000, true⟩, rfl, ?_, by decide, by decide, by decide⟩,
    1, _, by decide, rfl, rfl⟩
  decide

end Umicat.Upstream
