import Umicat.Base.Run
import Umicat.Upstream.Lemmas.Weight

/-!
# The range of effective weights

Penalties stop at 0 and a successful connection stops at the configured weight. The checker adds 1
without looking at the configured weight, and the random rule divides by a sum that can be 0.
-/

namespace Umicat.Upstream

open Umicat.Base

/-! ## The checker and the configured weight -/

/-- A probe that takes server `i` up finds it below its configured weight. -/
def Capped (i : Nat) (srvs : List Srv) : Event → Prop
  | .check j _ p => ∀ s ∈ srvs[i]?, j = i → s.Recovers p → s.effectiveWeight < s.weight
  | _ => True

instance instDecidableCapped (i : Nat) (srvs : List Srv) : (e : Event) → Decidable (Capped i srvs e)
  | .check j _ p => inferInstanceAs (Decidable
      (∀ s ∈ srvs[i]?, j = i → s.Recovers p → s.effectiveWeight < s.weight))
  | .select _ => isTrue trivial
  | .connectOk _ _ => isTrue trivial
  | .connectFail _ _ => isTrue trivial

def Srv.Ranged (s : Srv) : Prop := 0 ≤ s.effectiveWeight ∧ s.effectiveWeight ≤ s.weight

instance instDecidableRanged (s : Srv) : Decidable s.Ranged := inferInstanceAs (Decidable (_ ∧ _))

/-- Behind the step the weight of server `i` is in its range. -/
def RangedAfter (ring : List Point) (i : Nat) (srvs : List Srv) (e : Event) : Prop :=
  ∀ s ∈ (after ring srvs e)[i]?, s.Ranged

instance instDecidableRangedAfter (ring : List Point) (i : Nat) (srvs : List Srv) (e : Event) :
    Decidable (RangedAfter ring i srvs e) :=
  inferInstanceAs (Decidable (∀ s ∈ (after ring srvs e)[i]?, s.Ranged))

/-- A configured weight is at least 1 here, and a 32-bit integer. -/
structure Srv.Weighted (s : Srv) : Prop where
  pos : 1 ≤ s.weight
  lt : s.weight < 2 ^ 31
  range : s.Ranged

section
variable {i : Nat} {s s' : Srv} {e : Event}

/-- Every step but one of the checker keeps the range. -/
theorem Srv.Weighted.le (h : s.Weighted) (ha : s.Acted i e s')
    (hcheck : ∀ now p, e = .check i now p → s.Recovers p → s.effectiveWeight < s.weight) :
    s'.effectiveWeight ≤ s.weight := by
  obtain ⟨hpos, hlt, h0, hle⟩ := h
  cases ha with
  | select ht => rcases ht.retried with hsame | ⟨-, -, hone⟩ <;> omega
  | connectOk =>
      rw [s.effectiveWeight_connectOk]
      split <;> omega
  | @connectFail now =>
      have hlow := Srv.lowered_le (by omega) hlt h0 (by omega)
      rcases s.effectiveWeight_connectFail now with ⟨-, hw⟩ | ⟨-, hw⟩ <;> omega
  | @check now p =>
      rcases s.effectiveWeight_checkTcpCycle p with ⟨hr, -, hw⟩ | ⟨-, ⟨-, hw⟩ | ⟨-, hw⟩⟩
      · have := hcheck now p rfl hr
        omega
      · omega
      · omega
  | other _ => exact hle

end

section
variable {ring : List Point} {i : Nat} {srvs : List Srv} {e : Event}

theorem rangedAfter_iff (h : ∀ s, srvs[i]? = some s → s.Weighted) :
    Capped i srvs e ↔ RangedAfter ring i srvs e := by
  constructor
  · intro hcap s' hs'
    obtain ⟨s, hs, ha⟩ := acted_of_after hs'
    have hw := h s hs
    refine ⟨ha.nonneg hw.range.1, ?_⟩
    rw [ha.weight]
    refine hw.le ha fun now p he => ?_
    subst he
    exact hcap s hs rfl
  · intro hrange
    cases e with
    | select c => trivial
    | connectOk j now => trivial
    | connectFail j now => trivial
    | check j now p =>
        rintro s hs rfl hr
        have hs' : (after ring srvs (.check j now p))[j]? = some (s.checkTcpCycle p) := by
          have hget : srvs[j]? = some s := hs
          simp [after, step, hget]
        have hle := (hrange _ hs').2
        have hweight : (s.checkTcpCycle p).weight = s.weight :=
          congrArg Srv.Static.weight (s.static_checkTcpCycle p)
        rcases s.effectiveWeight_checkTcpCycle p with ⟨-, -, hw⟩ | ⟨hno, -⟩
        · omega
        · exact absurd hr hno

theorem weighted_after (h : ∀ s, srvs[i]? = some s → s.Weighted) (hcap : Capped i srvs e) :
    ∀ s, (after ring srvs e)[i]? = some s → s.Weighted := by
  intro s' hs'
  obtain ⟨s, hs, ha⟩ := acted_of_after hs'
  have hw := h s hs
  exact ⟨ha.weight ▸ hw.pos, ha.weight ▸ hw.lt, (rangedAfter_iff h).mp hcap s' hs'⟩

end

theorem weighted_confParse (mem : Nat → Srv) {cs : List Conf} {i : Nat} {c : Conf}
    (hc : cs[i]? = some c) (hw : 1 ≤ c.weight.toInt) :
    ∀ s, (confParse mem cs)[i]? = some s → s.Weighted := by
  intro s hs
  simp only [confParse, List.getElem?_mapIdx, hc, Option.map_some, Option.some.injEq] at hs
  subst hs
  have hlt := c.weight.toInt_lt
  exact ⟨hw, hlt, Int.le_trans (by decide) hw, Int.le_refl _⟩

/-- In a run, the effective weight of a server stays between 0 and its configured weight if and only
if no probe takes the server up when it already has its configured weight. -/
theorem effectiveWeight_range_iff (ring : List Point) (mem : Nat → Srv) {cs : List Conf} {i : Nat}
    {c : Conf} (hc : cs[i]? = some c) (hw : 1 ≤ c.weight.toInt) (es : List Event) :
    Along (after ring) (Capped i) (confParse mem cs) es ↔
      Along (after ring) (RangedAfter ring i) (confParse mem cs) es :=
  Along.iff_of_invariant (I := fun srvs => ∀ s, srvs[i]? = some s → s.Weighted)
    (fun _ _ => weighted_after) (fun _ _ => rangedAfter_iff) (weighted_confParse mem hc hw)

/-- A server of weight 2 fails, gets its retry weight and is taken up by a probe. -/
theorem effectiveWeight_range_iff_two :
    let c : Conf := ⟨[49], 80, 2, 1, 10, 1, 0, some ⟨5, 1, 1⟩⟩
    Along (after []) (RangedAfter [] 0) (confParse (fun _ => default) [c])
      [.connectFail 0 100, .select (.roundRobin 111), .check 0 112 (.timer 0)] := by
  intro c
  exact (effectiveWeight_range_iff [] (fun _ => default) (c := c) rfl (by decide) _).mp
    (by decide +kernel)

/-- A server of weight 1 does the same and ends up with weight 2. -/
theorem effectiveWeight_above_weight :
    let c : Conf := ⟨[49], 80, 1, 1, 10, 1, 0, some ⟨5, 1, 1⟩⟩
    let es := [.connectFail 0 100, .select (.roundRobin 111), .check 0 112 (.timer 0)]
    (es.flatMap Event.times).Pairwise (· ≤ ·) ∧
      ¬Along (after []) (RangedAfter [] 0) (confParse (fun _ => default) [c]) es := by
  intro c es
  exact ⟨by decide +kernel, by decide +kernel⟩

/-! ## Down servers -/

/-- A server that is down has weight 0 or the weight 1 of a retry. -/
structure Srv.Probing (s : Srv) : Prop where
  nonneg : 0 ≤ s.weight
  lt : s.weight < 2 ^ 31
  down : s.isDown = true → 0 ≤ s.effectiveWeight ∧ s.effectiveWeight ≤ 1

theorem Srv.Probing.acted {i : Nat} {s s' : Srv} {e : Event} (h : s.Probing) (ha : s.Acted i e s') :
    s'.Probing := by
  refine ⟨ha.weight ▸ h.nonneg, ha.weight ▸ h.lt, fun hdown => ?_⟩
  cases ha with
  | select ht =>
      rw [ht.quiet.isDown] at hdown
      have hw := h.down hdown
      rcases ht.retried with hsame | ⟨-, -, hone⟩ <;> omega
  | connectOk =>
      rw [s.connectOk_eq] at hdown
      cases hdown
  | @connectFail now =>
      rcases s.effectiveWeight_connectFail now with ⟨hd, hw⟩ | ⟨-, hw⟩
      · obtain ⟨h0, h1⟩ := h.down (hd ▸ hdown)
        have hlow := Srv.lowered_le h.nonneg h.lt h0 (by omega)
        have hpos := s.lowered_nonneg
        omega
      · omega
  | @check now p =>
      rcases s.effectiveWeight_checkTcpCycle p with ⟨-, hd, -⟩ | ⟨-, ⟨hd, hw⟩ | ⟨-, hw⟩⟩
      · exact absurd (hd.symm.trans hdown) (by simp)
      · exact hw ▸ h.down (hd ▸ hdown)
      · omega
  | other _ => exact h.down hdown

theorem probing_confParse (mem : Nat → Srv) {cs : List Conf} {i : Nat} {c : Conf}
    (hc : cs[i]? = some c) (hw : 0 ≤ c.weight.toInt) :
    ∀ s, (confParse mem cs)[i]? = some s → s.Probing := by
  intro s hs
  simp only [confParse, List.getElem?_mapIdx, hc, Option.map_some, Option.some.injEq] at hs
  subst hs
  exact ⟨hw, c.weight.toInt_lt, nofun⟩

/-- In every state that selections, connections and probes lead to, in any order, a server that is
down has effective weight 0 or 1. -/
theorem down_weight_le_one (ring : List Point) (mem : Nat → Srv) {cs : List Conf} {i : Nat}
    {c : Conf} (hc : cs[i]? = some c) (hw : 0 ≤ c.weight.toInt) (es : List Event) {s : Srv}
    (hs : (run ring (confParse mem cs) es).2[i]? = some s) (hdown : s.isDown = true) :
    0 ≤ s.effectiveWeight ∧ s.effectiveWeight ≤ 1 :=
  (run_invariant ring (fun _ _ _ ha h => h.acted ha) (probing_confParse mem hc hw) es s hs).down hdown

/-- A server of weight 7 with `max_fails` 2 fails twice, is tried again after its time-out and fails
once more. -/
theorem down_weight_le_one_retry :
    let c : Conf := ⟨[49], 80, 7, 2, 10, 1, 0, none⟩
    let es := [.connectFail 0 100, .connectFail 0 101, .select (.roundRobin 112), .connectFail 0 112]
    ∃ s, (run [] (confParse (fun _ => default) [c]) es).2[0]? = some s ∧ s.isDown = true ∧
      0 ≤ s.effectiveWeight ∧ s.effectiveWeight ≤ 1 := by
  intro c es
  have hdown : ((run [] (confParse (fun _ => default) [c]) es).2[0]?.map (·.isDown)) = some true := by
    decide +kernel
  obtain ⟨s, hs, hd⟩ := Option.map_eq_some_iff.mp hdown
  exact ⟨s, hs, hd, down_weight_le_one [] (fun _ => default) (c := c) rfl (by decide) es hs hd⟩

/-! ## The divisor of the random rule -/

/-- The server adds to the divisor at `now`: it is not skipped, and has weight or gets weight 1
back. -/
def Srv.Weighs (now : UInt64) (s : Srv) : Prop :=
  s.skipped now = false ∧
    (0 < s.effectiveWeight ∨ s.isDown = true ∧ now - s.lastFailTime > s.failTimeout)

theorem Srv.share_pos_iff {now : UInt64} {s : Srv} (h : 0 ≤ s.effectiveWeight) :
    0 < s.share now ↔ s.Weighs now := by
  unfold Srv.share Srv.Weighs
  cases hskip : s.skipped now with
  | true => simp
  | false =>
      simp only [Bool.false_eq_true, ↓reduceIte, true_and]
      unfold Srv.bump
      split
      · next hb => exact ⟨fun _ => Or.inr ⟨hb.2.1, hb.1⟩, fun _ => by simp only; omega⟩
      · next hb =>
          refine ⟨Or.inl, fun hw => ?_⟩
          rcases hw with hw | ⟨hdown, htime⟩
          · exact hw
          · by_contra hneg
            exact hb ⟨htime, hdown, by omega⟩

theorem totalWeight_pos_iff {now : UInt64} {srvs : List Srv}
    (h : ∀ s ∈ srvs, 0 ≤ s.effectiveWeight) :
    0 < totalWeight now srvs ↔ ∃ s ∈ srvs, s.Weighs now := by
  induction srvs with
  | nil => simp [totalWeight]
  | cons s srvs ih =>
      obtain ⟨hs, h⟩ := List.forall_mem_cons.mp h
      have hshare : 0 ≤ s.share now := Srv.share_nonneg hs
      have hrest : 0 ≤ totalWeight now srvs := totalWeight_nonneg h
      have hcons : totalWeight now (s :: srvs) = s.share now + totalWeight now srvs := by
        simp [totalWeight]
      rw [List.exists_mem_cons_iff, ← ih h, ← Srv.share_pos_iff hs, hcons]
      omega

/-- In every state that selections, connections and probes lead to, in any order, the divisor of the
random rule is positive if and only if some server adds to it. -/
theorem random_divisor_pos_iff (ring : List Point) (mem : Nat → Srv) {cs : List Conf}
    (hw : ∀ c ∈ cs, 1 ≤ c.weight.toInt) (es : List Event) (now : UInt64) :
    let srvs := (run ring (confParse mem cs) es).2
    0 < totalWeight now srvs ↔ ∃ s ∈ srvs, s.Weighs now := by
  apply totalWeight_pos_iff
  apply nonneg_run
  intro s hs
  obtain ⟨i, hi, rfl⟩ := List.mem_mapIdx.mp hs
  exact Int.le_trans (by decide) (hw _ (List.getElem_mem hi))

/-- Server 0 fails at 100, server 1 gets a selection and then fails at 109, a probe takes server 2
down. At 111 server 1 is skipped, while the time-out of server 0 is over. -/
theorem random_divisor_pos_elapsed :
    let cs : List Conf := [⟨[49], 80, 1, 1, 10, 1, 0, none⟩, ⟨[50], 80, 4, 1, 10, 1, 0, none⟩,
      ⟨[51], 80, 2, 2, 10, 1, 0, some ⟨5, 1, 1⟩⟩]
    let es := [.connectFail 0 100, .select (.random 105 105 3), .connectOk 1 105,
      .connectFail 1 109, .check 2 110 (.timer (-2))]
    let srvs := (run [] (confParse (fun _ => default) cs) es).2
    (es.flatMap Event.times).Pairwise (· ≤ ·) ∧
      srvs.map (fun s => (s.isDown, s.skipped 111)) = [(true, false), (true, true), (true, false)] ∧
      0 < totalWeight 111 srvs := by
  intro cs es srvs
  have hweighs : ∃ s ∈ srvs, s.Weighs 111 := by
    unfold Srv.Weighs
    decide +kernel
  have hcs : ∀ c ∈ cs, 1 ≤ c.weight.toInt := by decide
  exact ⟨by decide +kernel, by decide +kernel,
    (random_divisor_pos_iff [] (fun _ => default) hcs es 111).mpr hweighs⟩

/-- The only server fails at time 100. At time 105 the divisor is 0 and the selection traps. -/
theorem random_divides_by_zero :
    let c : Conf := ⟨[49], 80, 1, 1, 10, 1, 0, none⟩
    let srvs := (run [] (confParse (fun _ => default) [c]) [.connectFail 0 100]).2
    totalWeight 105 srvs = 0 ∧ ∀ rand, upstreamRandomGet 105 105 rand srvs = none := by
  intro c srvs
  have htotal : totalWeight 105 srvs = 0 := by decide +kernel
  refine ⟨htotal, fun rand => ?_⟩
  simp only [upstreamRandomGet, htotal, ↓reduceIte]

end Umicat.Upstream
