import Umicat.Base.Run
import Umicat.Upstream.Lemmas.Frame

/-!
# Passive detection

One server under connection attempts and probes. Failures are counted in a window that begins with a
failure, and a failure after the end of the window begins the next one.
-/

namespace Umicat.Upstream

open Umicat.Base

/-! ## Attempts -/

inductive Attempt
  | connectOk (now : UInt64)
  | connectFail (now : UInt64)
  | probe (now : UInt64) (p : Probe)
deriving Repr, DecidableEq

def Attempt.now : Attempt → UInt64
  | .connectOk now => now
  | .connectFail now => now
  | .probe now _ => now

def Srv.attempt (s : Srv) : Attempt → Srv
  | .connectOk _ => s.connectOk
  | .connectFail now => s.connectFail now
  | .probe _ p => s.checkTcpCycle p

/-- What a failure at `now` makes of the count and the beginning of the window. -/
inductive Srv.Counts (now : UInt64) (s : Srv) : UInt64 → UInt64 → Prop
  | opens : s.failTimeout < now - s.lastFailTime → s.Counts now 1 now
  | adds : now - s.lastFailTime ≤ s.failTimeout → s.Counts now (s.fails + 1) s.lastFailTime

/-- A failure of a server that is up takes it down just when the count is full. -/
theorem Srv.connectFail_counts {s : Srv} (hup : s.isDown = false) (hbelow : s.fails < s.maxFails)
    (now : UInt64) :
    ∃ f w, s.Counts now f w ∧
      (s.maxFails ≤ f ∧ (s.connectFail now).isDown = true ∨
        f < s.maxFails ∧ (s.connectFail now).isDown = false ∧ (s.connectFail now).fails = f ∧
          (s.connectFail now).lastFailTime = w) := by
  have hne : s.fails + 1 ≠ 0 := by
    intro h0
    have hlt := UInt64.lt_iff_toNat_lt.mp hbelow
    have hmax := s.maxFails.toNat_lt
    have h0 := congrArg UInt64.toNat h0
    rw [UInt64.toNat_add, UInt64.toNat_one, UInt64.toNat_zero] at h0
    omega
  unfold Srv.connectFail Srv.countFail
  split
  · next hopen =>
      refine ⟨1, now, .opens hopen, ?_⟩
      by_cases hfull : s.maxFails ≤ 1
      · simp [Srv.failed, hfull]
      · simp [Srv.failed, hfull, hup, not_le.mp hfull]
  · next hopen =>
      have hin : now - s.lastFailTime ≤ s.failTimeout := not_lt.mp hopen
      refine ⟨s.fails + 1, s.lastFailTime, .adds hin, ?_⟩
      by_cases hfull : s.maxFails ≤ s.fails + 1
      · simp [Srv.failed, hfull, hne, hin]
      · simp [Srv.failed, hfull, hup, not_le.mp hfull]

theorem Srv.connectFail_down {s : Srv} (h : s.isDown = true) (now : UInt64) :
    (s.connectFail now).isDown = true := by
  have hcount : (s.countFail now).isDown = true := by
    unfold Srv.countFail
    split <;> exact h
  simp only [Srv.connectFail]
  split
  · rfl
  · exact hcount

theorem Srv.lastFailTime_connectFail_le {s : Srv} {now : UInt64} (h : s.lastFailTime ≤ now) :
    (s.connectFail now).lastFailTime ≤ now := by
  have hcount : (s.countFail now).lastFailTime ≤ now := by
    unfold Srv.countFail
    split
    · exact le_rfl
    · exact h
  simp only [Srv.connectFail]
  split
  · exact le_rfl
  · exact hcount

theorem Srv.attempt_static (s : Srv) (e : Attempt) : (s.attempt e).static = s.static := by
  cases e with
  | connectOk now => exact s.static_connectOk
  | connectFail now => exact s.static_connectFail now
  | probe now p => exact s.static_checkTcpCycle p

/-- A probe leaves the record of failures alone, unless it takes the server up or down. -/
theorem Srv.checkTcpCycle_fails (p : Probe) (s : Srv) :
    ((s.checkTcpCycle p).isDown = s.isDown ∧ (s.checkTcpCycle p).fails = s.fails ∨
      s.isDown = true ∧ (s.checkTcpCycle p).isDown = false ∧ (s.checkTcpCycle p).fails = 0 ∨
      s.isDown = false ∧ (s.checkTcpCycle p).isDown = true) := by
  unfold Srv.checkTcpCycle
  split
  · simp only [Srv.checkOk]
    split
    · next h => exact Or.inr (Or.inl ⟨h.1, rfl, rfl⟩)
    · exact Or.inl ⟨rfl, rfl⟩
  · simp only [Srv.checkFail, Bool.not_eq_eq_eq_not, Bool.not_true]
    split
    · next h => exact Or.inr (Or.inr ⟨h.1, rfl⟩)
    · exact Or.inl ⟨rfl, rfl⟩
  · exact Or.inl ⟨rfl, rfl⟩

/-! ## Failures since the server was marked up -/

/-- A server with the times of its failed connections since it was last marked up, the last one
first, and the clock. -/
structure Tally where
  srv : Srv
  failures : List UInt64
  clock : UInt64
deriving Repr, DecidableEq

def Tally.step (g : Tally) (e : Attempt) : Tally where
  srv := g.srv.attempt e
  failures :=
    match e with
    | .connectFail now => now :: g.failures
    | _ => if g.srv.isDown && !(g.srv.attempt e).isDown then [] else g.failures
  clock := e.now

@[simp] theorem Tally.maxFails_step (g : Tally) (e : Attempt) :
    (g.step e).srv.maxFails = g.srv.maxFails :=
  congrArg Srv.Static.maxFails (g.srv.attempt_static e)

@[simp] theorem Tally.failTimeout_step (g : Tally) (e : Attempt) :
    (g.step e).srv.failTimeout = g.srv.failTimeout :=
  congrArg Srv.Static.failTimeout (g.srv.attempt_static e)

def Tally.Timely (g : Tally) (e : Attempt) : Prop := g.clock ≤ e.now

instance instDecidableTallyTimely (g : Tally) (e : Attempt) : Decidable (g.Timely e) :=
  inferInstanceAs (Decidable (g.clock ≤ e.now))

/-- The time `t` lies in the interval of length `timeout` that ends at `now`. -/
def inWindow (now timeout t : UInt64) : Bool :=
  decide (now.toNat ≤ t.toNat + timeout.toNat ∧ t ≤ now)

/-- A failed connection takes the server down only when there were `max_fails` failures within
`fail_timeout` since it was marked up. -/
def Tally.Justified (g : Tally) (e : Attempt) : Prop :=
  ∀ now, e = .connectFail now → g.srv.isDown = false → (g.step e).srv.isDown = true →
    g.srv.maxFails.toNat ≤ (g.step e).failures.countP (inWindow now g.srv.failTimeout)

/-- As long as the server is up, every failure that is counted is on record and not before the
beginning of the window. -/
structure Tally.Sound (g : Tally) : Prop where
  past : g.srv.lastFailTime ≤ g.clock
  recent : ∀ t ∈ g.failures, t ≤ g.clock
  pos : 0 < g.srv.maxFails
  counted : g.srv.isDown = false → g.srv.fails.toNat ≤ g.failures.countP (g.srv.lastFailTime ≤ ·)
  below : g.srv.isDown = false → g.srv.fails < g.srv.maxFails

variable {g : Tally} {now : UInt64}

theorem Tally.Sound.recent_cons (h : g.Sound) (hle : g.clock ≤ now) :
    ∀ t ∈ now :: g.failures, t ≤ now :=
  List.forall_mem_cons.mpr ⟨le_rfl, fun t ht => (h.recent t ht).trans hle⟩

/-- Nothing is asked of the count of a server that is down. -/
theorem Tally.sound_of_down (hpast : g.srv.lastFailTime ≤ g.clock)
    (hrecent : ∀ t ∈ g.failures, t ≤ g.clock) (hpos : 0 < g.srv.maxFails)
    (hdown : g.srv.isDown = true) : g.Sound :=
  ⟨hpast, hrecent, hpos, fun hup => absurd (hdown.symm.trans hup) (by simp),
    fun hup => absurd (hdown.symm.trans hup) (by simp)⟩

theorem Tally.Sound.counts (h : g.Sound) (hle : g.clock ≤ now) (hup : g.srv.isDown = false)
    {f w : UInt64} (hc : g.srv.Counts now f w) :
    w ≤ now ∧ now.toNat ≤ w.toNat + g.srv.failTimeout.toNat ∧
      f.toNat ≤ (now :: g.failures).countP (w ≤ ·) := by
  cases hc with
  | opens _ =>
      refine ⟨le_rfl, Nat.le_add_right _ _, ?_⟩
      rw [List.countP_cons_of_pos (by simp)]
      exact Nat.le_add_left _ _
  | adds hin =>
      have hpast := h.past.trans hle
      rw [UInt64.le_iff_toNat_le, UInt64.toNat_sub_of_le _ _ hpast] at hin
      refine ⟨hpast, by omega, ?_⟩
      rw [List.countP_cons_of_pos (by simpa using hpast)]
      have hcounted := h.counted hup
      have hwrap : (g.srv.fails + 1).toNat ≤ g.srv.fails.toNat + 1 := by
        rw [UInt64.toNat_add]
        exact Nat.mod_le _ _
      exact hwrap.trans (Nat.add_le_add_right hcounted 1)

theorem Tally.Sound.counts_step (h : g.Sound) (hup : g.srv.isDown = false) (t : UInt64) :
    ∃ f w, g.srv.Counts t f w ∧
      (g.srv.maxFails ≤ f ∧ (g.step (.connectFail t)).srv.isDown = true ∨
        f < g.srv.maxFails ∧ (g.step (.connectFail t)).srv.isDown = false ∧
          (g.step (.connectFail t)).srv.fails = f ∧
          (g.step (.connectFail t)).srv.lastFailTime = w) :=
  Srv.connectFail_counts hup (h.below hup) t

theorem Tally.Sound.justified {e : Attempt} (h : g.Sound) (ht : g.Timely e) : g.Justified e := by
  intro now he hup hdown
  subst he
  have hle : g.clock ≤ now := ht
  obtain ⟨f, w, hc, ⟨hfull, -⟩ | ⟨-, hstill, -⟩⟩ := h.counts_step hup now
  · obtain ⟨-, hwindow, hcount⟩ := h.counts hle hup hc
    calc g.srv.maxFails.toNat ≤ f.toNat := UInt64.le_iff_toNat_le.mp hfull
      _ ≤ (now :: g.failures).countP (w ≤ ·) := hcount
      _ ≤ (now :: g.failures).countP (inWindow now g.srv.failTimeout) := by
        apply List.countP_mono_left
        intro t ht hw
        have hw := UInt64.le_iff_toNat_le.mp (of_decide_eq_true hw)
        exact decide_eq_true ⟨by omega, h.recent_cons hle t ht⟩
  · exact absurd (hstill.symm.trans hdown) (by simp)

/-- A step that is no failed connection keeps the record, or takes the server up with none, or takes
it down. -/
theorem Tally.Sound.passes {s : Srv} (h : g.Sound) (hle : g.clock ≤ now)
    (hmax : s.maxFails = g.srv.maxFails) (hlast : s.lastFailTime = g.srv.lastFailTime)
    (hcases : s.isDown = g.srv.isDown ∧ s.fails = g.srv.fails ∨
      g.srv.isDown = true ∧ s.isDown = false ∧ s.fails = 0 ∨
      g.srv.isDown = false ∧ s.isDown = true) :
    Tally.Sound ⟨s, if g.srv.isDown && !s.isDown then [] else g.failures, now⟩ := by
  have hpast : s.lastFailTime ≤ now := hlast ▸ h.past.trans hle
  have hpos : 0 < s.maxFails := hmax ▸ h.pos
  have hrecent : ∀ t ∈ g.failures, t ≤ now := fun t ht => (h.recent t ht).trans hle
  rcases hcases with ⟨hd, hf⟩ | ⟨hd, hd', hf⟩ | ⟨hd, hd'⟩
  · have hkeep : (if g.srv.isDown && !s.isDown then [] else g.failures) = g.failures := by
      rw [hd]
      simp
    rw [hkeep]
    refine ⟨hpast, hrecent, hpos, fun hup => ?_, fun hup => ?_⟩
    · simp only [hf, hlast]
      exact h.counted (hd ▸ hup)
    · simp only [hf, hmax]
      exact h.below (hd ▸ hup)
  · have hnone : (if g.srv.isDown && !s.isDown then [] else g.failures) = [] := by simp [hd, hd']
    rw [hnone]
    refine ⟨hpast, nofun, hpos, fun _ => ?_, fun _ => ?_⟩
    · simp [hf]
    · simp only [hf]
      exact hpos
  · have hkeep : (if g.srv.isDown && !s.isDown then [] else g.failures) = g.failures := by simp [hd]
    rw [hkeep]
    exact Tally.sound_of_down hpast hrecent hpos hd'

theorem Tally.Sound.connectFail (h : g.Sound) (hle : g.clock ≤ now) :
    (g.step (.connectFail now)).Sound := by
  have hrecent := h.recent_cons hle
  have hpast := Srv.lastFailTime_connectFail_le (h.past.trans hle)
  have hpos : 0 < (g.step (.connectFail now)).srv.maxFails := by
    rw [Tally.maxFails_step]
    exact h.pos
  cases hd : g.srv.isDown with
  | true => exact Tally.sound_of_down hpast hrecent hpos (Srv.connectFail_down hd now)
  | false =>
      obtain ⟨f, w, hc, ⟨-, hdown⟩ | ⟨hlt, -, hf, hw⟩⟩ := h.counts_step hd now
      · exact Tally.sound_of_down hpast hrecent hpos hdown
      · obtain ⟨-, -, hcount⟩ := h.counts hle hd hc
        refine ⟨hpast, hrecent, hpos, fun _ => ?_, fun _ => ?_⟩
        · rw [hf, hw]
          exact hcount
        · rw [hf, Tally.maxFails_step]
          exact hlt

theorem Tally.Sound.step {e : Attempt} (h : g.Sound) (ht : g.Timely e) : (g.step e).Sound := by
  have hmax := g.maxFails_step e
  cases e with
  | connectOk now =>
      have hlast : g.srv.connectOk.lastFailTime = g.srv.lastFailTime := by rw [g.srv.connectOk_eq]
      have hup : g.srv.connectOk.isDown = false := by rw [g.srv.connectOk_eq]
      have hfails : g.srv.connectOk.fails = if g.srv.isDown then 0 else g.srv.fails := by
        rw [g.srv.connectOk_eq]
      refine h.passes ht hmax hlast ?_
      cases hd : g.srv.isDown with
      | true =>
          rw [hd, if_pos rfl] at hfails
          exact Or.inr (Or.inl ⟨rfl, hup, hfails⟩)
      | false =>
          rw [hd, if_neg Bool.false_ne_true] at hfails
          exact Or.inl ⟨hup, hfails⟩
  | connectFail now => exact h.connectFail ht
  | probe now p =>
      exact h.passes ht hmax (g.srv.lastFailTime_checkTcpCycle p) (g.srv.checkTcpCycle_fails p)

/-- A server as the parser leaves it. -/
def Tally.start (slot : Srv) (c : Conf) : Tally := ⟨confParseUpstream slot c, [], 0⟩

theorem Tally.start_sound (slot : Srv) {c : Conf} (hmax : 1 ≤ toUInt c.maxFails) :
    (Tally.start slot c).Sound :=
  ⟨le_rfl, nofun, hmax, fun _ => Nat.zero_le _, fun _ => hmax⟩

/-- In every run of connection attempts and probes at non-decreasing times, a failed connection takes
the server down only after `max_fails` failures within `fail_timeout` since it was marked up, and a
server that is up has fewer than `max_fails` failures counted. -/
theorem passive_justified (slot : Srv) {c : Conf} (hmax : 1 ≤ toUInt c.maxFails) (es : List Attempt)
    (h : Along Tally.step Tally.Timely (Tally.start slot c) es) :
    Along Tally.step Tally.Justified (Tally.start slot c) es ∧
      let g := es.foldl Tally.step (Tally.start slot c)
      g.srv.isDown = false → g.srv.fails < g.srv.maxFails :=
  ⟨h.of_invariant (fun _ _ => Tally.Sound.step) (fun _ _ => Tally.Sound.justified)
      (Tally.start_sound slot hmax),
    (h.invariant (fun _ _ => Tally.Sound.step) (Tally.start_sound slot hmax)).below⟩

/-- With `max_fails` 2, a failure, a success and another failure within the time-out take the server
down; a probe takes it up again. -/
theorem passive_justified_twice :
    let c : Conf := ⟨[49], 80, 1, 2, 10, 1, 0, some ⟨5, 1, 1⟩⟩
    Along Tally.step Tally.Justified (Tally.start default c)
      [.connectFail 100, .connectOk 103, .connectFail 110, .probe 111 (.timer 0)] := by
  intro c
  exact (passive_justified default (by decide) _ (by decide)).1

/-! ## Bursts of failures -/

/-- The failure of a burst that fills the count still lies in the window that is open before it. -/
def Tally.Fills (g : Tally) (ts : List UInt64) : Prop :=
  ∃ t, ts[g.srv.maxFails.toNat - g.srv.fails.toNat - 1]? = some t ∧
    t - g.srv.lastFailTime ≤ g.srv.failTimeout

theorem sub_le_sub_of_le {a t u : UInt64} (hat : a ≤ t) (htu : t ≤ u) : t - a ≤ u - a := by
  have hau := UInt64.toNat_sub_of_le _ _ (hat.trans htu)
  rw [UInt64.le_iff_toNat_le, UInt64.toNat_sub_of_le _ _ hat, hau]
  exact Nat.sub_le_sub_right (UInt64.le_iff_toNat_le.mp htu) _

theorem toNat_succ_of_lt {a b : UInt64} (h : a < b) : (a + 1).toNat = a.toNat + 1 := by
  have hlt := UInt64.lt_iff_toNat_lt.mp h
  have hb := b.toNat_lt
  rw [UInt64.toNat_add, UInt64.toNat_one, Nat.mod_eq_of_lt (by omega)]

/-- In a timely burst no failure comes before the clock. -/
theorem clock_le_of_along {ts : List UInt64} {g : Tally}
    (h : Along Tally.step Tally.Timely g (ts.map .connectFail)) : ∀ t ∈ ts, g.clock ≤ t := by
  induction ts generalizing g with
  | nil => nofun
  | cons t ts ih =>
      intro u hu
      rcases List.mem_cons.mp hu with rfl | hu
      · exact h.1
      · exact le_trans (b := t) h.1 (ih h.2 u hu)

theorem down_burst {g : Tally} (h : g.srv.isDown = true) (ts : List UInt64) :
    ((ts.map .connectFail).foldl Tally.step g).srv.isDown = true := by
  induction ts generalizing g with
  | nil => exact h
  | cons t ts ih => exact ih (Srv.connectFail_down h t)

/-- Failures that cannot fill the count leave the server up. -/
theorem up_burst {ts : List UInt64} {g : Tally} (hs : g.Sound) (hup : g.srv.isDown = false)
    (h : Along Tally.step Tally.Timely g (ts.map .connectFail))
    (hfew : g.srv.fails.toNat + ts.length < g.srv.maxFails.toNat) :
    ((ts.map .connectFail).foldl Tally.step g).srv.isDown = false := by
  induction ts generalizing g with
  | nil => exact hup
  | cons t ts ih =>
      rw [List.length_cons] at hfew
      obtain ⟨f, w, hc, hcases⟩ := hs.counts_step hup t
      have hf : f.toNat ≤ g.srv.fails.toNat + 1 := by
        cases hc with
        | opens _ => exact Nat.le_add_left _ _
        | adds _ => exact (toNat_succ_of_lt (hs.below hup)).le
      rcases hcases with ⟨hfull, -⟩ | ⟨-, hup', hfails, -⟩
      · have := UInt64.le_iff_toNat_le.mp hfull
        omega
      · apply ih (hs.step h.1) hup' h.2
        rw [hfails, Tally.maxFails_step]
        omega

/-- While the window stays open every failure counts. -/
theorem down_burst_of_open {ts : List UInt64} {g : Tally} (hs : g.Sound)
    (hup : g.srv.isDown = false) (h : Along Tally.step Tally.Timely g (ts.map .connectFail))
    (hopen : ∀ t ∈ ts, t - g.srv.lastFailTime ≤ g.srv.failTimeout)
    (hmany : g.srv.maxFails.toNat ≤ g.srv.fails.toNat + ts.length) :
    ((ts.map .connectFail).foldl Tally.step g).srv.isDown = true := by
  induction ts generalizing g with
  | nil =>
      have := UInt64.lt_iff_toNat_lt.mp (hs.below hup)
      simp only [List.length_nil] at hmany
      omega
  | cons t ts ih =>
      rw [List.length_cons] at hmany
      obtain ⟨f, w, hc, ⟨-, hdown⟩ | ⟨-, hup', hfails, hlast⟩⟩ := hs.counts_step hup t
      · exact down_burst hdown ts
      · cases hc with
        | opens hlate => exact absurd (hopen t List.mem_cons_self) (not_le.mpr hlate)
        | adds _ =>
            apply ih (hs.step h.1) hup' h.2
            · intro u hu
              rw [hlast, Tally.failTimeout_step]
              exact hopen u (List.mem_cons_of_mem _ hu)
            · rw [hfails, Tally.maxFails_step, toNat_succ_of_lt (hs.below hup)]
              omega

/-- A failure that begins a new window leaves no later one in the old window. -/
theorem not_fills_of_opens {t : UInt64} {ts : List UInt64} {g : Tally} (hs : g.Sound)
    (h : Along Tally.step Tally.Timely g ((t :: ts).map .connectFail))
    (hlate : g.srv.failTimeout < t - g.srv.lastFailTime) : ¬ g.Fills (t :: ts) := by
  rintro ⟨u, hu, hin⟩
  have hle : t ≤ u := by
    rcases List.mem_cons.mp (List.mem_of_getElem? hu) with rfl | hu
    · exact le_rfl
    · exact clock_le_of_along h.2 u hu
  have hlater := sub_le_sub_of_le (hs.past.trans h.1) hle
  exact absurd (hlate.trans_le hlater) (not_lt.mpr hin)

/-- A failure that neither begins a window nor fills the count leaves the same failure of the burst
to fill it. -/
theorem fills_step {t : UInt64} {ts : List UInt64} {g : Tally} (hs : g.Sound)
    (hup : g.srv.isDown = false) (hlt : g.srv.fails + 1 < g.srv.maxFails)
    (hfails : (g.step (.connectFail t)).srv.fails = g.srv.fails + 1)
    (hlast : (g.step (.connectFail t)).srv.lastFailTime = g.srv.lastFailTime) :
    (g.step (.connectFail t)).Fills ts ↔ g.Fills (t :: ts) := by
  have hsucc := toNat_succ_of_lt (hs.below hup)
  have hlt := UInt64.lt_iff_toNat_lt.mp hlt
  have hidx : g.srv.maxFails.toNat - g.srv.fails.toNat - 1 =
      g.srv.maxFails.toNat - (g.srv.fails + 1).toNat - 1 + 1 := by omega
  unfold Tally.Fills
  rw [hfails, hlast, Tally.maxFails_step, Tally.failTimeout_step, hidx, List.getElem?_cons_succ]

theorem fills_of_full {t : UInt64} {ts : List UInt64} {g : Tally} (hs : g.Sound)
    (hup : g.srv.isDown = false) (hfull : g.srv.maxFails ≤ g.srv.fails + 1)
    (hin : t - g.srv.lastFailTime ≤ g.srv.failTimeout) : g.Fills (t :: ts) := by
  have hsucc := toNat_succ_of_lt (hs.below hup)
  have hfull := UInt64.le_iff_toNat_le.mp hfull
  have hidx : g.srv.maxFails.toNat - g.srv.fails.toNat - 1 = 0 := by omega
  exact ⟨t, by rw [hidx, List.getElem?_cons_zero], hin⟩

/-- Fewer failures than `max_fails` take the server down just when one of them fills the count. -/
theorem burst_short {ts : List UInt64} {g : Tally} (hs : g.Sound) (hup : g.srv.isDown = false)
    (h : Along Tally.step Tally.Timely g (ts.map .connectFail))
    (hlen : ts.length < g.srv.maxFails.toNat) :
    ((ts.map .connectFail).foldl Tally.step g).srv.isDown = true ↔ g.Fills ts := by
  induction ts generalizing g with
  | nil => simp [Tally.Fills, hup]
  | cons t ts ih =>
      rw [List.length_cons] at hlen
      obtain ⟨f, w, hc, hcases⟩ := hs.counts_step hup t
      cases hc with
      | opens hlate =>
          have hone : (1 : UInt64).toNat + ts.length < g.srv.maxFails.toNat := by
            rw [UInt64.toNat_one]
            omega
          rcases hcases with ⟨hfull, -⟩ | ⟨-, hup', hfails, -⟩
          · have := UInt64.le_iff_toNat_le.mp hfull
            omega
          · have hstill := up_burst (hs.step h.1) hup' h.2 (by rwa [hfails, Tally.maxFails_step])
            exact iff_of_false (fun hd => absurd (hstill.symm.trans hd) (by simp))
              (not_fills_of_opens hs h hlate)
      | adds hin =>
          rcases hcases with ⟨hfull, hdown⟩ | ⟨hlt, hup', hfails, hlast⟩
          · exact iff_of_true (down_burst hdown ts) (fills_of_full hs hup hfull hin)
          · rw [← fills_step hs hup hlt hfails hlast]
            exact ih (hs.step h.1) hup' h.2 (by rw [Tally.maxFails_step]; omega)

/-- A burst of `max_fails` failures within `fail_timeout` of its first one, from a server that is
up. -/
theorem burst_full {t : UInt64} {ts : List UInt64} {g : Tally} (hs : g.Sound)
    (hup : g.srv.isDown = false)
    (h : Along Tally.step Tally.Timely g ((t :: ts).map .connectFail))
    (hlen : ts.length + 1 = g.srv.maxFails.toNat)
    (hspan : ∀ u ∈ ts, u.toNat ≤ t.toNat + g.srv.failTimeout.toNat) :
    (((t :: ts).map .connectFail).foldl Tally.step g).srv.isDown = true ↔
      g.srv.failTimeout < t - g.srv.lastFailTime ∨ g.Fills (t :: ts) := by
  obtain ⟨f, w, hc, hcases⟩ := hs.counts_step hup t
  cases hc with
  | opens hlate =>
      refine iff_of_true ?_ (Or.inl hlate)
      rcases hcases with ⟨-, hdown⟩ | ⟨-, hup', hfails, hlast⟩
      · exact down_burst hdown ts
      · apply down_burst_of_open (hs.step h.1) hup' h.2
        · intro u hu
          have hle : t ≤ u := clock_le_of_along h.2 u hu
          have hu := hspan u hu
          rw [hlast, Tally.failTimeout_step, UInt64.le_iff_toNat_le, UInt64.toNat_sub_of_le _ _ hle]
          omega
        · rw [hfails, Tally.maxFails_step, UInt64.toNat_one]
          omega
  | adds hin =>
      rw [or_iff_right (not_lt.mpr hin)]
      rcases hcases with ⟨hfull, hdown⟩ | ⟨hlt, hup', hfails, hlast⟩
      · exact iff_of_true (down_burst hdown ts) (fills_of_full hs hup hfull hin)
      · rw [← fills_step hs hup hlt hfails hlast]
        exact burst_short (hs.step h.1) hup' h.2 (by rw [Tally.maxFails_step]; omega)

/-- After any run at non-decreasing times, `max_fails` failures in a row, none later than
`fail_timeout` after the first, leave the server down just when it was down before them, or the first
one begins a new window, or the one that fills the count lies in the window open before them. -/
theorem passive_burst (slot : Srv) {c : Conf} (hmax : 1 ≤ toUInt c.maxFails) (es : List Attempt)
    (t : UInt64) (ts : List UInt64)
    (h : Along Tally.step Tally.Timely (Tally.start slot c) (es ++ (t :: ts).map .connectFail))
    (hlen : (t :: ts).length = (toUInt c.maxFails).toNat)
    (hspan : ∀ u ∈ ts, u.toNat ≤ t.toNat + (toUInt c.failTimeout).toNat) :
    let g := es.foldl Tally.step (Tally.start slot c)
    (((t :: ts).map .connectFail).foldl Tally.step g).srv.isDown = true ↔
      g.srv.isDown = true ∨ g.srv.failTimeout < t - g.srv.lastFailTime ∨ g.Fills (t :: ts) := by
  intro g
  obtain ⟨hes, hts⟩ := along_append.mp h
  have hs : g.Sound := hes.invariant (fun _ _ => Tally.Sound.step) (Tally.start_sound slot hmax)
  have hstatic : g.srv.maxFails = toUInt c.maxFails ∧ g.srv.failTimeout = toUInt c.failTimeout :=
    hes.invariant (I := fun g => g.srv.maxFails = toUInt c.maxFails ∧
      g.srv.failTimeout = toUInt c.failTimeout) (fun g e hg _ => by simpa using hg) ⟨rfl, rfl⟩
  cases hd : g.srv.isDown with
  | true => exact iff_of_true (down_burst hd (t :: ts)) (Or.inl rfl)
  | false =>
      rw [or_iff_right Bool.false_ne_true]
      apply burst_full hs hd hts
      · rw [hstatic.1]
        exact hlen
      · rw [hstatic.2]
        exact hspan

/-- With `max_fails` 2, the first failure of the burst begins a window and the second fills the
count. -/
theorem passive_burst_pair :
    let c : Conf := ⟨[49], 80, 1, 2, 10, 1, 0, none⟩
    let g := [.connectFail 100, .connectOk 101].foldl Tally.step (Tally.start default c)
    g.srv.failTimeout < 120 - g.srv.lastFailTime ∧
      (([120, 130].map .connectFail).foldl Tally.step g).srv.isDown = true := by
  intro c g
  have hopens : g.srv.failTimeout < 120 - g.srv.lastFailTime := by decide
  have hspan : ∀ u ∈ [(130 : UInt64)], u.toNat ≤ (120 : UInt64).toNat + (toUInt c.failTimeout).toNat := by
    intro u hu
    rw [List.mem_singleton.mp hu]
    decide
  have hdown := passive_burst default (c := c) (by decide) [.connectFail 100, .connectOk 101] 120
    [130] (by decide) (by decide) hspan
  exact ⟨hopens, hdown.mpr (Or.inr (Or.inl hopens))⟩

/-- With `max_fails` 3 and `fail_timeout` 10, a failure at 100 leaves its window open until 110. Of
the failures at 109, 111 and 112 only the last two are counted then. -/
theorem burst_missed :
    let c : Conf := ⟨[49], 80, 1, 3, 10, 1, 0, none⟩
    let g := [.connectFail 100].foldl Tally.step (Tally.start default c)
    let ts : List UInt64 := [109, 111, 112]
    1 ≤ toUInt c.maxFails ∧
      Along Tally.step Tally.Timely (Tally.start default c)
        ([.connectFail 100] ++ ts.map .connectFail) ∧
      ts.length = (toUInt c.maxFails).toNat ∧ (112 : UInt64) - 109 ≤ toUInt c.failTimeout ∧
      ((ts.map .connectFail).foldl Tally.step g).srv.isDown = false := by
  decide

end Umicat.Upstream
