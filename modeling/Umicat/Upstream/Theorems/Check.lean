import Umicat.Base.Run
import Umicat.Upstream.Lemmas.Frame

/-!
# Active checks and consecutive results

One server under passive and active detection, with the results of its probes so far, the last one
first.
-/

namespace Umicat.Upstream

open Umicat.Base

structure Watch where
  srv : Srv
  results : List Bool
deriving Repr, DecidableEq

inductive WatchEvent
  | connectOk
  | connectFail (now : UInt64)
  | probe (p : Probe)
deriving Repr, DecidableEq

def Watch.step (w : Watch) : WatchEvent → Watch
  | .connectOk => { w with srv := w.srv.connectOk }
  | .connectFail now => { w with srv := w.srv.connectFail now }
  | .probe p =>
      ⟨w.srv.checkTcpCycle p, (p.verdict w.srv.checkTimeout).toList ++ w.results⟩

/-- The last `n` results are there and are all `b`. -/
def Lasting (b : Bool) (n : Nat) (results : List Bool) : Prop :=
  List.replicate n b <+: results

/-- The checker takes the server down only after `fall` failures in a row, and up only after `rise`
successes in a row. -/
def Watch.Justified (w : Watch) : WatchEvent → Prop
  | .probe p =>
      let w' := w.step (.probe p)
      (w.srv.isDown = false → w'.srv.isDown = true →
        Lasting false w.srv.checkFall.toNat w'.results) ∧
      (w.srv.isDown = true → w'.srv.isDown = false →
        Lasting true w.srv.checkRise.toNat w'.results)
  | _ => True

/-- A result that differs from the one before it finds its own counter at 0. -/
def Watch.Cleared (w : Watch) : WatchEvent → Prop
  | .probe p =>
      match p.verdict w.srv.checkTimeout with
      | some true => w.srv.checkSuccesses = 0 ∨ w.results.head? = some true
      | some false => w.srv.checkFails = 0 ∨ w.results.head? = some false
      | none => True
  | _ => True

/-! ## Counters -/

def Srv.counter (s : Srv) : Bool → UInt64
  | true => s.checkSuccesses
  | false => s.checkFails

theorem Srv.counter_connectOk (s : Srv) (b : Bool) : s.connectOk.counter b = s.counter b := by
  rw [s.connectOk_eq]
  cases b <;> rfl

theorem Srv.counter_connectFail (now : UInt64) (s : Srv) (b : Bool) :
    (s.connectFail now).counter b = s.counter b := by
  obtain ⟨w, t, n, d, h⟩ := s.connectFail_frame now
  rw [h]
  cases b <;> rfl

/-- How many results of a kind take the server to the other side. -/
def Srv.limit (s : Srv) : Bool → UInt64
  | true => s.checkRise
  | false => s.checkFall

/-- A result `b` either is the last one that takes the server to the other side, or is counted. -/
theorem Srv.checkTcpCycle_cases {p : Probe} {s : Srv} {b : Bool}
    (hv : p.verdict s.checkTimeout = some b) :
    ((s.isDown = b ∧ s.limit b ≤ s.counter b + 1) ∧ (s.checkTcpCycle p).isDown = !b ∧
      ∀ b', (s.checkTcpCycle p).counter b' = 0) ∨
    (¬(s.isDown = b ∧ s.limit b ≤ s.counter b + 1) ∧ (s.checkTcpCycle p).isDown = s.isDown ∧
      (s.checkTcpCycle p).counter b = s.counter b + 1 ∧
      (s.checkTcpCycle p).counter (!b) = s.counter (!b)) := by
  unfold Srv.checkTcpCycle
  rw [hv]
  cases b with
  | true =>
      simp only [Srv.checkOk]
      split
      · next h => exact Or.inl ⟨h, rfl, fun b' => by cases b' <;> rfl⟩
      · next h => exact Or.inr ⟨h, rfl, rfl, rfl⟩
  | false =>
      simp only [Srv.checkFail, Bool.not_eq_eq_eq_not, Bool.not_true]
      split
      · next h => exact Or.inl ⟨h, rfl, fun b' => by cases b' <;> rfl⟩
      · next h => exact Or.inr ⟨h, rfl, rfl, rfl⟩

theorem Srv.checkTcpCycle_of_none {p : Probe} {s : Srv} (hv : p.verdict s.checkTimeout = none) :
    s.checkTcpCycle p = s := by
  simp only [Srv.checkTcpCycle, hv]

/-! ## Results in a row -/

theorem Lasting.mono {b : Bool} {m n : Nat} {results : List Bool} (h : Lasting b n results)
    (hm : m ≤ n) : Lasting b m results := by
  obtain ⟨d, rfl⟩ := Nat.exists_eq_add_of_le hm
  unfold Lasting at h
  rw [List.replicate_add] at h
  exact (List.prefix_append _ _).trans h

theorem Lasting.cons {b : Bool} {n : Nat} {results : List Bool} (h : Lasting b n results) :
    Lasting b (n + 1) (b :: results) :=
  List.cons_prefix_cons.mpr ⟨rfl, h⟩

theorem lasting_zero (b : Bool) (results : List Bool) : Lasting b 0 results := List.nil_prefix

/-- The counter of the last result counts only results in a row. -/
def Watch.Sound (w : Watch) : Prop :=
  ∀ b, w.results.head? = some b → Lasting b (w.srv.counter b).toNat w.results

theorem Watch.Sound.cons {w : Watch} {b : Bool} (h : w.Sound)
    (hb : w.srv.counter b = 0 ∨ w.results.head? = some b) :
    Lasting b (w.srv.counter b + 1).toNat (b :: w.results) := by
  have hle : (w.srv.counter b + 1).toNat ≤ (w.srv.counter b).toNat + 1 := by
    rw [UInt64.toNat_add]
    exact Nat.mod_le _ _
  rcases hb with h0 | hhead
  · refine Lasting.mono (lasting_zero b w.results).cons ?_
    simp [h0]
  · exact (h b hhead).cons.mono hle

theorem Watch.Sound.next {w : Watch} {b : Bool} {s : Srv} (h : w.Sound)
    (hb : w.srv.counter b = 0 ∨ w.results.head? = some b)
    (hs : s.counter b = w.srv.counter b + 1 ∨ s.counter b = 0) : Watch.Sound ⟨s, b :: w.results⟩ := by
  intro b' hb'
  cases hb'
  rcases hs with hs | hs
  · simpa [hs] using h.cons hb
  · simpa [hs] using lasting_zero b (b :: w.results)

theorem Watch.Cleared.counter {w : Watch} {p : Probe} {b : Bool} (hc : w.Cleared (.probe p))
    (hv : p.verdict w.srv.checkTimeout = some b) :
    w.srv.counter b = 0 ∨ w.results.head? = some b := by
  simp only [Watch.Cleared, hv] at hc
  cases b with
  | true => exact hc
  | false => exact hc

theorem Watch.step_probe {w : Watch} {p : Probe} {b : Bool}
    (hv : p.verdict w.srv.checkTimeout = some b) :
    w.step (.probe p) = ⟨w.srv.checkTcpCycle p, b :: w.results⟩ := by
  simp [Watch.step, hv]

theorem Watch.step_probe_of_none {w : Watch} {p : Probe}
    (hv : p.verdict w.srv.checkTimeout = none) : w.step (.probe p) = w := by
  simp [Watch.step, hv, Srv.checkTcpCycle_of_none hv]

theorem Watch.Sound.step {w : Watch} {e : WatchEvent} (h : w.Sound) (hc : w.Cleared e) :
    (w.step e).Sound := by
  cases e with
  | connectOk =>
      intro b hb
      simpa only [Watch.step, Srv.counter_connectOk] using h b hb
  | connectFail now =>
      intro b hb
      simpa only [Watch.step, Srv.counter_connectFail] using h b hb
  | probe p =>
      cases hv : p.verdict w.srv.checkTimeout with
      | none => rwa [Watch.step_probe_of_none hv]
      | some b =>
          rw [Watch.step_probe hv]
          refine h.next (hc.counter hv) ?_
          rcases Srv.checkTcpCycle_cases hv with ⟨-, -, hzero⟩ | ⟨-, -, hcount, -⟩
          · exact Or.inr (hzero b)
          · exact Or.inl hcount

theorem Watch.Sound.justified {w : Watch} {e : WatchEvent} (h : w.Sound) (hc : w.Cleared e) :
    w.Justified e := by
  cases e with
  | connectOk => trivial
  | connectFail now => trivial
  | probe p =>
      have hsame (h : (w.step (.probe p)).srv.isDown = w.srv.isDown) : w.Justified (.probe p) :=
        ⟨fun hup hdown => absurd (hup.symm.trans (h.symm.trans hdown)) (by simp),
          fun hdown hup => absurd (hdown.symm.trans (h.symm.trans hup)) (by simp)⟩
      cases hv : p.verdict w.srv.checkTimeout with
      | none => exact hsame (by rw [Watch.step_probe_of_none hv])
      | some b =>
          rcases Srv.checkTcpCycle_cases hv with ⟨⟨hdown, hlimit⟩, -, -⟩ | ⟨-, hd, -⟩
          · have hrow := (h.cons (hc.counter hv)).mono (UInt64.le_iff_toNat_le.mp hlimit)
            simp only [Watch.Justified, Watch.step_probe hv]
            cases b with
            | true => exact ⟨fun hup => absurd (hdown.symm.trans hup) (by simp), fun _ _ => hrow⟩
            | false => exact ⟨fun _ _ => hrow, fun hd => absurd (hdown.symm.trans hd) (by simp)⟩
          · exact hsame (by rw [Watch.step_probe hv]; exact hd)

/-- In every run in which a changed result finds its counter at 0, the checker acts only on
consecutive results. -/
theorem check_consecutive (s : Srv) (es : List WatchEvent)
    (h : Along Watch.step Watch.Cleared ⟨s.checkInit, []⟩ es) :
    Along Watch.step Watch.Justified ⟨s.checkInit, []⟩ es :=
  h.of_invariant (fun _ _ => Watch.Sound.step) (fun _ _ => Watch.Sound.justified) nofun

/-- Two failures take a server down and a success takes it up again. -/
theorem check_consecutive_fall_rise :
    Along Watch.step Watch.Justified
      ⟨({ (default : Srv) with checkFall := 2, checkRise := 1 } : Srv).checkInit, []⟩
      [.probe (.timer (-2)), .probe (.timer (-2)), .probe (.timer 0)] :=
  check_consecutive _ _ ⟨Or.inl rfl, Or.inr rfl, Or.inl (by decide), trivial⟩

/-- With `fall` 2, a failure, a success and a failure take the server down. -/
theorem check_not_consecutive :
    ¬Along Watch.step Watch.Justified
      ⟨({ (default : Srv) with checkFall := 2, checkRise := 2 } : Srv).checkInit, []⟩
      [.probe (.timer (-2)), .probe (.timer 0), .probe (.timer (-2))] := by
  intro h
  have hrow := h.2.2.1.1 (by decide) (by decide)
  revert hrow
  unfold Lasting
  decide

/-! ## No run of results is missed -/

/-- No connection attempt takes the server up or down. -/
def Watch.Still (w : Watch) : WatchEvent → Prop
  | .probe _ => True
  | e => (w.step e).srv.isDown = w.srv.isDown

instance instDecidableStill (w : Watch) : (e : WatchEvent) → Decidable (w.Still e)
  | .probe _ => isTrue trivial
  | .connectOk => inferInstanceAs (Decidable (_ = _))
  | .connectFail _ => inferInstanceAs (Decidable (_ = _))

/-- How many of the last results are `b`. -/
def streak (b : Bool) (results : List Bool) : Nat := (results.takeWhile (· == b)).length

theorem Lasting.le_streak {b : Bool} {n : Nat} {results : List Bool} (h : Lasting b n results) :
    n ≤ streak b results := by
  obtain ⟨rest, rfl⟩ := h
  simp [streak]

theorem streak_same (b : Bool) (results : List Bool) :
    streak b (b :: results) = streak b results + 1 := by
  simp [streak]

theorem streak_not (b : Bool) (results : List Bool) : streak (!b) (b :: results) = 0 := by
  cases b <;> rfl

theorem Srv.limit_of_static {s s' : Srv} (h : s'.static = s.static) : s'.limit = s.limit := by
  funext b
  cases b with
  | true => exact congrArg Srv.Static.checkRise h
  | false => exact congrArg Srv.Static.checkFall h

/-- The results that would take the server to the other side are counted at least as far as they
reach back, and are too few. -/
structure Watch.Prompt (limit : Bool → UInt64) (w : Watch) : Prop where
  limits : w.srv.limit = limit
  counted : streak w.srv.isDown w.results ≤ (w.srv.counter w.srv.isDown).toNat
  short : w.srv.counter w.srv.isDown < limit w.srv.isDown

theorem Watch.Prompt.connected {limit : Bool → UInt64} {w : Watch} {s : Srv} (h : w.Prompt limit)
    (hstatic : s.static = w.srv.static) (hcounter : ∀ b, s.counter b = w.srv.counter b)
    (hdown : s.isDown = w.srv.isDown) : Watch.Prompt limit ⟨s, w.results⟩ := by
  refine ⟨(Srv.limit_of_static hstatic).trans h.limits, ?_, ?_⟩
  · simpa only [hdown, hcounter] using h.counted
  · simpa only [hdown, hcounter] using h.short

theorem Watch.Prompt.probe {limit : Bool → UInt64} {w : Watch} {p : Probe}
    (hpos : ∀ b, 0 < limit b) (h : w.Prompt limit) : (w.step (.probe p)).Prompt limit := by
  cases hv : p.verdict w.srv.checkTimeout with
  | none => rwa [Watch.step_probe_of_none hv]
  | some b =>
      rw [Watch.step_probe hv]
      have hlimit := (Srv.limit_of_static (w.srv.static_checkTcpCycle p)).trans h.limits
      rcases Srv.checkTcpCycle_cases hv with ⟨-, hd, hzero⟩ | ⟨hno, hd, hcount, hother⟩
      · refine ⟨hlimit, ?_, ?_⟩
        · simp only [hd, streak_not]
          exact Nat.zero_le _
        · simp only [hzero]
          exact hpos _
      · rw [h.limits] at hno
        by_cases hb : w.srv.isDown = b
        · -- the count cannot wrap below the limit
          have hshort : w.srv.counter b + 1 < limit b := not_le.mp fun hle => hno ⟨hb, hle⟩
          have hadd : (w.srv.counter b + 1).toNat = (w.srv.counter b).toNat + 1 := by
            have hlt := UInt64.lt_iff_toNat_lt.mp (hb ▸ h.short)
            have hmax := (limit b).toNat_lt
            rw [UInt64.toNat_add, UInt64.toNat_one]
            omega
          have hcounted := h.counted
          rw [hb] at hcounted
          refine ⟨hlimit, ?_, ?_⟩
          · simp only [hd, hb, hcount, streak_same, hadd]
            omega
          · simp only [hd, hb, hcount]
            exact hshort
        · have hd' : w.srv.isDown = !b := Bool.eq_not.mpr hb
          have hshort := h.short
          rw [hd'] at hshort
          refine ⟨hlimit, ?_, ?_⟩
          · simp only [hd, hd', streak_not]
            exact Nat.zero_le _
          · simp only [hd, hd', hother]
            exact hshort

theorem Watch.Prompt.step {limit : Bool → UInt64} {w : Watch} {e : WatchEvent}
    (hpos : ∀ b, 0 < limit b) (h : w.Prompt limit) (hstill : w.Still e) :
    (w.step e).Prompt limit := by
  cases e with
  | connectOk => exact h.connected w.srv.static_connectOk w.srv.counter_connectOk hstill
  | connectFail now =>
      exact h.connected (w.srv.static_connectFail now) (w.srv.counter_connectFail now) hstill
  | probe p => exact h.probe hpos

/-- In every run from the initialisation of the checker on in which only the checker takes the server
up or down, the server is down after `fall` failures in a row and up after `rise` successes in a
row. -/
theorem check_prompt (s : Srv) (hfall : 1 ≤ s.checkFall) (hrise : 1 ≤ s.checkRise)
    (es : List WatchEvent) (h : Along Watch.step Watch.Still ⟨s.checkInit, []⟩ es) :
    let w := es.foldl Watch.step ⟨s.checkInit, []⟩
    (Lasting false s.checkFall.toNat w.results → w.srv.isDown = true) ∧
      (Lasting true s.checkRise.toNat w.results → w.srv.isDown = false) := by
  intro w
  have hpos (b : Bool) : 0 < s.limit b := by
    cases b with
    | true => exact hrise
    | false => exact hfall
  have hinit (b : Bool) : s.checkInit.counter b = 0 := by cases b <;> rfl
  have hprompt : w.Prompt s.limit := by
    refine h.invariant (fun _ _ hw hstill => hw.step hpos hstill) ⟨rfl, Nat.zero_le _, ?_⟩
    simp only [hinit]
    exact hpos _
  have hflip (b : Bool) (hrow : Lasting b (s.limit b).toNat w.results) : w.srv.isDown ≠ b := by
    intro hb
    have hcounted := hb ▸ hprompt.counted
    have hshort := UInt64.lt_iff_toNat_lt.mp (hb ▸ hprompt.short)
    have := hrow.le_streak
    omega
  exact ⟨fun hrow => by simpa using hflip false hrow, fun hrow => by simpa using hflip true hrow⟩

/-- With `fall` and `rise` 2, mixed results and then two successes leave the server up. -/
theorem check_prompt_mixed :
    let s : Srv := { (default : Srv) with checkFall := 2, checkRise := 2 }
    let es := [.probe (.timer (-2)), .probe (.timer 0), .probe (.timer (-2)), .probe (.timer (-2)),
      .probe (.timer 0), .probe (.timer 0)]
    (es.foldl Watch.step ⟨s.checkInit, []⟩).srv.isDown = false := by
  intro s es
  refine (check_prompt s (by decide) (by decide) es (by decide)).2 ?_
  unfold Lasting
  decide

end Umicat.Upstream
