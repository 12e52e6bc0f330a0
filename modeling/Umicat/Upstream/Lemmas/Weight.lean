import Umicat.Upstream.Lemmas.Select

/-!
# Effective weights

What a step can do to one server, and to its effective weight.
-/

namespace Umicat.Upstream

open Umicat.Base

/-- What a step can do to server `i`. -/
inductive Srv.Acted (i : Nat) (s : Srv) : Event → Srv → Prop
  | select {c s'} : s.Touched s' → s.Acted i (.select c) s'
  | connectOk {now} : s.Acted i (.connectOk i now) s.connectOk
  | connectFail {now} : s.Acted i (.connectFail i now) (s.connectFail now)
  | check {now p} : s.Acted i (.check i now p) (s.checkTcpCycle p)
  | other {e} : e.target ≠ some i → s.Acted i e s

theorem acted_after (ring : List Point) {srvs : List Srv} (e : Event) {i : Nat} {s : Srv}
    (h : srvs[i]? = some s) : ∃ s', (after ring srvs e)[i]? = some s' ∧ s.Acted i e s' := by
  have hother (j : Nat) (hj : j ≠ i) (f : Srv → Srv) : (srvs.modify j f)[i]? = some s := by
    rw [List.getElem?_modify, h]
    simp [hj]
  have hsame (f : Srv → Srv) : (srvs.modify i f)[i]? = some (f s) := by
    rw [List.getElem?_modify, h]
    simp
  cases e with
  | select c =>
      obtain ⟨s', hs', ht⟩ := touched_choose ring c h
      exact ⟨s', hs', .select ht⟩
  | connectOk j now =>
      by_cases hj : j = i
      · subst hj; exact ⟨_, hsame _, .connectOk⟩
      · exact ⟨s, hother j hj _, .other (by simpa [Event.target] using hj)⟩
  | connectFail j now =>
      by_cases hj : j = i
      · subst hj; exact ⟨_, hsame _, .connectFail⟩
      · exact ⟨s, hother j hj _, .other (by simpa [Event.target] using hj)⟩
  | check j now p =>
      by_cases hj : j = i
      · subst hj; exact ⟨_, hsame _, .check⟩
      · exact ⟨s, hother j hj _, .other (by simpa [Event.target] using hj)⟩

theorem length_after (ring : List Point) (srvs : List Srv) (e : Event) :
    (after ring srvs e).length = srvs.length := by
  have hlen := congrArg List.length (static_step ring srvs e)
  rwa [List.length_map, List.length_map] at hlen

theorem acted_of_after {ring : List Point} {srvs : List Srv} {e : Event} {i : Nat} {s' : Srv}
    (h : (after ring srvs e)[i]? = some s') : ∃ s, srvs[i]? = some s ∧ s.Acted i e s' := by
  have hi : i < srvs.length := length_after ring srvs e ▸ (List.getElem?_eq_some_iff.mp h).1
  have hs := List.getElem?_eq_getElem hi
  obtain ⟨t, ht, ha⟩ := acted_after ring e hs
  cases h.symm.trans ht
  exact ⟨_, hs, ha⟩

theorem Srv.Acted.weight {i : Nat} {s s' : Srv} {e : Event} (h : s.Acted i e s') :
    s'.weight = s.weight := by
  cases h with
  | select ht => exact congrArg Srv.Static.weight ht.quiet.static
  | connectOk => exact congrArg Srv.Static.weight s.static_connectOk
  | connectFail => exact congrArg Srv.Static.weight (s.static_connectFail _)
  | check => exact congrArg Srv.Static.weight (s.static_checkTcpCycle _)
  | other _ => rfl

/-! ## Selections -/

/-- A selection gives a down server without weight weight 1 and changes no other weight. -/
def Srv.Retried (s s' : Srv) : Prop :=
  s'.effectiveWeight = s.effectiveWeight ∨
    s.isDown = true ∧ s.effectiveWeight = 0 ∧ s'.effectiveWeight = 1

theorem Srv.retried_bump (now : UInt64) (s : Srv) : s.Retried (s.bump now) := by
  unfold Srv.bump
  split
  · next h => exact Or.inr ⟨h.2.1, h.2.2, by simp [h.2.2]⟩
  · exact Or.inl rfl

theorem Srv.retried_credit (now : UInt64) (s : Srv) : s.Retried (s.credit now) := by
  unfold Srv.credit
  split
  · exact Or.inl rfl
  · exact s.retried_bump now

theorem Srv.retried_retry (now : UInt64) (s : Srv) : s.Retried (s.retry now) := by
  unfold Srv.retry
  split
  · exact Or.inl rfl
  · exact s.retried_bump now

theorem Srv.Touched.retried {s s' : Srv} (h : s.Touched s') : s.Retried s' := by
  cases h with
  | same => exact Or.inl rfl
  | countUp => exact Or.inl rfl
  | credit now => exact s.retried_credit now
  | pay now total => exact s.retried_credit now
  | retry now => exact s.retried_retry now

/-! ## Connections -/

theorem Srv.lowered_nonneg (s : Srv) : 0 ≤ s.lowered := by
  simp only [Srv.lowered]
  generalize (if s.maxFails ≠ 0 then _ else _ : Int) = w
  split <;> omega

/-- A server without negative weight is penalised by at most its weight, so nothing wraps. -/
theorem Srv.lowered_le {s : Srv} (hw : 0 ≤ s.weight) (hlt : s.weight < 2 ^ 31)
    (h0 : 0 ≤ s.effectiveWeight) (hlt' : s.effectiveWeight < 2 ^ 31) :
    s.lowered ≤ s.effectiveWeight := by
  have hpenalty : 0 ≤ s.penalty ∧ s.penalty ≤ s.weight := by
    unfold Srv.penalty
    rw [Int.emod_eq_of_lt hw (by omega)]
    exact ⟨Int.ediv_nonneg hw (Int.natCast_nonneg _), Int.ediv_le_self _ hw⟩
  have hbmod : (s.effectiveWeight - s.penalty).bmod (2 ^ 64) = s.effectiveWeight - s.penalty :=
    Int.bmod_eq_of_le (by omega) (by omega)
  simp only [Srv.lowered, hbmod]
  split <;> split <;> omega

/-- A failure lowers the weight, or takes all of it with the server. -/
theorem Srv.effectiveWeight_connectFail (now : UInt64) (s : Srv) :
    (s.connectFail now).isDown = s.isDown ∧ (s.connectFail now).effectiveWeight = s.lowered ∨
      (s.connectFail now).isDown = true ∧ (s.connectFail now).effectiveWeight = 0 := by
  have hcount : (s.countFail now).isDown = s.isDown ∧
      (s.countFail now).effectiveWeight = s.lowered := by
    unfold Srv.countFail
    split <;> exact ⟨rfl, rfl⟩
  simp only [Srv.connectFail]
  split
  · exact Or.inr ⟨rfl, rfl⟩
  · exact Or.inl hcount

theorem Srv.effectiveWeight_connectOk (s : Srv) :
    s.connectOk.effectiveWeight =
      if s.effectiveWeight < s.weight then s.effectiveWeight + 1 else s.effectiveWeight := by
  rw [s.connectOk_eq]

/-! ## Probes -/

/-- The probe is the success that takes the server up. -/
def Srv.Recovers (s : Srv) (p : Probe) : Prop :=
  p.verdict s.checkTimeout = some true ∧ s.isDown = true ∧ s.checkSuccesses + 1 ≥ s.checkRise

instance instDecidableRecovers (s : Srv) (p : Probe) : Decidable (s.Recovers p) :=
  inferInstanceAs (Decidable (_ ∧ _ ∧ _))

theorem Srv.effectiveWeight_checkTcpCycle (p : Probe) (s : Srv) :
    (s.Recovers p ∧ (s.checkTcpCycle p).isDown = false ∧
      (s.checkTcpCycle p).effectiveWeight = s.effectiveWeight + 1) ∨
    ¬s.Recovers p ∧
      ((s.checkTcpCycle p).isDown = s.isDown ∧
        (s.checkTcpCycle p).effectiveWeight = s.effectiveWeight ∨
      (s.checkTcpCycle p).isDown = true ∧ (s.checkTcpCycle p).effectiveWeight = 0) := by
  unfold Srv.checkTcpCycle Srv.Recovers
  split
  · next hv =>
      unfold Srv.checkOk
      simp only
      split
      · next hup => exact Or.inl ⟨⟨hv, hup⟩, rfl, rfl⟩
      · next hup => exact Or.inr ⟨fun h => hup h.2, Or.inl ⟨rfl, rfl⟩⟩
  · next hv =>
      refine Or.inr ⟨fun h => by simp [hv] at h, ?_⟩
      unfold Srv.checkFail
      simp only
      split
      · exact Or.inr ⟨rfl, rfl⟩
      · exact Or.inl ⟨rfl, rfl⟩
  · next hv => exact Or.inr ⟨fun h => by simp [hv] at h, Or.inl ⟨rfl, rfl⟩⟩

/-! ## No step makes a weight negative -/

theorem Srv.nonneg_connectOk {s : Srv} (h : 0 ≤ s.effectiveWeight) :
    0 ≤ s.connectOk.effectiveWeight := by
  rw [s.effectiveWeight_connectOk]
  split <;> omega

theorem Srv.nonneg_connectFail (now : UInt64) (s : Srv) :
    0 ≤ (s.connectFail now).effectiveWeight := by
  rcases s.effectiveWeight_connectFail now with ⟨-, h⟩ | ⟨-, h⟩
  · rw [h]; exact s.lowered_nonneg
  · rw [h]

theorem Srv.nonneg_checkTcpCycle (p : Probe) {s : Srv} (h : 0 ≤ s.effectiveWeight) :
    0 ≤ (s.checkTcpCycle p).effectiveWeight := by
  rcases s.effectiveWeight_checkTcpCycle p with ⟨-, -, h'⟩ | ⟨-, ⟨-, h'⟩ | ⟨-, h'⟩⟩ <;> omega

theorem Srv.Acted.nonneg {i : Nat} {s s' : Srv} {e : Event} (h : s.Acted i e s')
    (h0 : 0 ≤ s.effectiveWeight) : 0 ≤ s'.effectiveWeight := by
  cases h with
  | select ht => exact ht.quiet.nonneg h0
  | connectOk => exact Srv.nonneg_connectOk h0
  | connectFail => exact s.nonneg_connectFail _
  | check => exact Srv.nonneg_checkTcpCycle _ h0
  | other _ => exact h0

/-! ## Runs -/

/-- What every step keeps of server `i` holds of it behind every run. -/
theorem run_invariant (ring : List Point) {P : Srv → Prop} {i : Nat}
    (hstep : ∀ e s s', s.Acted i e s' → P s → P s') {srvs : List Srv}
    (h : ∀ s, srvs[i]? = some s → P s) (es : List Event) :
    ∀ s, (run ring srvs es).2[i]? = some s → P s := by
  induction es generalizing srvs with
  | nil => exact h
  | cons e es ih =>
      rw [run_cons]
      refine ih fun s' hs' => ?_
      obtain ⟨s, hs, ha⟩ := acted_of_after hs'
      exact hstep e s s' ha (h s hs)

theorem nonneg_run (ring : List Point) {srvs : List Srv} (h : ∀ s ∈ srvs, 0 ≤ s.effectiveWeight)
    (es : List Event) : ∀ s ∈ (run ring srvs es).2, 0 ≤ s.effectiveWeight := by
  intro s hs
  obtain ⟨i, hi⟩ := List.mem_iff_getElem?.mp hs
  exact run_invariant ring (fun e s s' ha => ha.nonneg)
    (fun s hs => h s (List.mem_of_getElem? hs)) es s hi

end Umicat.Upstream
