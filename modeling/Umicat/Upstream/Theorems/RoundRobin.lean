import Umicat.Upstream.Lemmas.RoundRobin
import Umicat.Upstream.Lemmas.Select

/-!
# Round robin shares requests by weight
-/

namespace Umicat.Upstream

open Umicat.Base

/-- A server as the parser leaves it: up, with its whole weight and no credit. -/
def Srv.Fresh (s : Srv) : Prop :=
  s.isDown = false ∧ s.effectiveWeight = s.weight ∧ s.currentWeight = 0

theorem confParse_fresh (mem : Nat → Srv) (cs : List Conf) :
    ∀ s ∈ confParse mem cs, s.Fresh := by
  intro s hs
  obtain ⟨i, c, _, rfl⟩ := List.mem_mapIdx.mp hs
  exact ⟨rfl, rfl, rfl⟩

theorem steady_of_fresh {srvs : List Srv} (h : ∀ s ∈ srvs, s.Fresh) : Steady srvs :=
  fun s hs => ⟨(h s hs).1, (h s hs).2.1⟩

theorem vec_credits_of_fresh {srvs : List Srv} (h : ∀ s ∈ srvs, s.Fresh) :
    vec srvs.length (credits srvs) = 0 := by
  funext i
  simp [vec, credits, (h _ (List.getElem_mem i.isLt)).2.2]

theorem vec_weights_nonneg {srvs : List Srv} (hw : ∀ s ∈ srvs, 0 ≤ s.weight)
    (i : Fin srvs.length) : 0 ≤ vec srvs.length (weights srvs) i := by
  simpa [vec, weights] using hw _ (List.getElem_mem i.isLt)

theorem count_map_val {n i : Nat} (hi : i < n) (ps : List (Fin n)) :
    (ps.map (·.val)).count i = ps.count ⟨i, hi⟩ :=
  List.count_map_of_injective ps _ Fin.val_injective ⟨i, hi⟩

theorem currentWeight_eq_zero {n : Nat} {srvs : List Srv} (hn : srvs.length = n)
    (h : vec n (credits srvs) = 0) : ∀ t ∈ srvs, t.currentWeight = 0 := by
  subst hn
  intro t ht
  obtain ⟨j, hj, rfl⟩ := List.mem_iff_getElem.mp ht
  simpa [vec, credits, hj] using congrFun h ⟨j, hj⟩

section
variable (ring : List Point) {srvs : List Srv} (hfresh : ∀ s ∈ srvs, s.Fresh)
  (hw : ∀ s ∈ srvs, 0 ≤ s.weight) (hW : 0 < (weights srvs).sum)
include hfresh hW

theorem run_shared (es : List Event) (hes : ∀ e ∈ es, e.Calm) :
    ∃ ps : List (Fin srvs.length), (run ring srvs es).1 = ps.map (·.val) ∧
      Shared (vec srvs.length (weights srvs)) ps
        (vec srvs.length (credits (run ring srvs es).2)) := by
  have hstart := vec_credits_of_fresh hfresh ▸ Shared.start (w := vec srvs.length (weights srvs))
  simpa using (steady_of_fresh hfresh).run_shared ring (by simp [weights]) hW rfl hstart hes

theorem run_credit (es : List Event) (hes : ∀ e ∈ es, e.Calm) (i : Fin srvs.length) :
    vec srvs.length (credits (run ring srvs es).2) i =
      (run ring srvs es).1.length * srvs[i].weight -
        (weights srvs).sum * (run ring srvs es).1.count i.val := by
  obtain ⟨ps, hps, hsh⟩ := run_shared ring hfresh hW es hes
  have hwi : vec srvs.length (weights srvs) i = srvs[i].weight := by simp [vec, weights]
  rw [hsh.credit_eq, sum_vec (by simp [weights]), hwi, hps, List.length_map, count_map_val i.isLt]

include hw

theorem run_credit_gt (es : List Event) (hes : ∀ e ∈ es, e.Calm) (i : Fin srvs.length) :
    -(weights srvs).sum < vec srvs.length (credits (run ring srvs es).2) i := by
  obtain ⟨ps, hps, hsh⟩ := run_shared ring hfresh hW es hes
  have hsum := sum_vec (n := srvs.length) (l := weights srvs) (by simp [weights])
  exact hsum ▸ hsh.neg_sum_lt (vec_weights_nonneg hw) (hsum ▸ hW) i

theorem run_credit_zero (es : List Event) (hes : ∀ e ∈ es, e.Calm)
    (hk : (weights srvs).sum ∣ (run ring srvs es).1.length) :
    vec srvs.length (credits (run ring srvs es).2) = 0 := by
  obtain ⟨ps, hps, hsh⟩ := run_shared ring hfresh hW es hes
  have hsum := sum_vec (n := srvs.length) (l := weights srvs) (by simp [weights])
  apply hsh.eq_zero (vec_weights_nonneg hw) (hsum ▸ hW)
  rw [hsum]
  simpa [hps] using hk

theorem credits_window (es es' : List Event) (hes : ∀ e ∈ es, e.Calm) (hes' : ∀ e ∈ es', e.Calm)
    (hk : ((run ring (run ring srvs es).2 es').1.length : ℤ) = (weights srvs).sum) :
    credits (run ring srvs (es ++ es')).2 = credits (run ring srvs es).2 := by
  obtain ⟨hs, hws, hc⟩ := (steady_of_fresh hfresh).run_calm ring hes
  obtain ⟨_, _, hc'⟩ := hs.run_calm ring hes'
  have hk' : (run ring (run ring srvs es).2 es').1.length = (weights srvs).sum.toNat := by omega
  rw [run_append, hc', hws, hk', hc, ← Function.iterate_add_apply, Nat.add_comm,
    Function.iterate_add_apply, creditStep_period (n := srvs.length) (by simp [weights])
      (by simp [credits]) (vec_weights_nonneg hw) hW (vec_credits_of_fresh hfresh)]

end

/-- In a run of selections and successful connections no server gets a whole request ahead of its
share, and every window of as many selections as the weights add up to is shared exactly. -/
theorem roundRobin_exact (ring : List Point) (srvs : List Srv) (es es' : List Event)
    (hfresh : ∀ s ∈ srvs, s.Fresh) (hw : ∀ s ∈ srvs, 0 ≤ s.weight)
    (hW : 0 < (weights srvs).sum) (hes : ∀ e ∈ es, e.Calm) (hes' : ∀ e ∈ es', e.Calm) :
    let W := (weights srvs).sum
    let r := run ring srvs es
    let r' := run ring r.2 es'
    ∀ i s, srvs[i]? = some s →
      W * r.1.count i < r.1.length * s.weight + W ∧
      (W ∣ r.1.length →
        (r.1.count i : ℤ) = r.1.length * s.weight / W ∧ ∀ t ∈ r.2, t.currentWeight = 0) ∧
      (r'.1.length = W → (r'.1.count i : ℤ) = s.weight) := by
  intro W r r' i s hs
  obtain ⟨hi, rfl⟩ := List.getElem?_eq_some_iff.mp hs
  have hcredit := run_credit ring hfresh hW es hes ⟨i, hi⟩
  refine ⟨?_, fun hdvd => ⟨?_, ?_⟩, fun hk => ?_⟩
  · have := run_credit_gt ring hfresh hw hW es hes ⟨i, hi⟩
    rw [hcredit] at this
    simp only [Fin.getElem_fin] at this
    linarith
  · rw [run_credit_zero ring hfresh hw hW es hes hdvd] at hcredit
    apply Int.eq_ediv_of_mul_eq_right (ne_of_gt hW)
    simp only [Pi.zero_apply, Fin.getElem_fin] at hcredit
    linarith
  · have hlen := congrArg List.length ((steady_of_fresh hfresh).run_calm ring hes).2.1
    simp only [weights, List.length_map] at hlen
    exact currentWeight_eq_zero hlen (run_credit_zero ring hfresh hw hW es hes hdvd)
  · have hcredit' := run_credit ring hfresh hW (es ++ es')
      (by simpa [or_imp, forall_and] using ⟨hes, hes'⟩) ⟨i, hi⟩
    rw [credits_window ring hfresh hw hW es es' hes hes' hk, hcredit, run_append] at hcredit'
    have hk' : ((run ring (run ring srvs es).2 es').1.length : ℤ) = W := hk
    simp only [List.length_append, List.count_append, Nat.cast_add, hk', Fin.getElem_fin] at hcredit'
    apply Int.eq_of_mul_eq_mul_left (ne_of_gt hW)
    linarith

/-- Weights 3 and 1: four selections give 3 and 1 requests. -/
theorem roundRobin_exact_three_one :
    let c : Conf := ⟨[], 80, 3, 2, 10, 1, 30, none⟩
    let srvs := confParse (fun _ => default) [c, { c with weight := 1 }]
    let es := [.select (.roundRobin 5), .connectOk 0 5, .select (.roundRobin 6),
      .select (.roundRobin 6), .connectOk 1 7, .select (.roundRobin 8)]
    ((run [] srvs es).1.count 0 : ℤ) = 4 * 3 / 4 := by
  intro c srvs es
  have hcalm : ∀ e ∈ es, e.Calm := by simp [es, Event.Calm]
  exact ((roundRobin_exact [] srvs es [] (confParse_fresh _ _) (by decide) (by decide) hcalm
    (by simp) 0 srvs[0] rfl).2.1 (by decide)).1

/-! ## Conservation of credit -/

theorem sum_credits_roundRobinGet (now : UInt64) (srvs : List Srv) :
    (credits (upstreamRoundRobinGet now srvs).2).sum = (credits srvs).sum := by
  cases srvs with
  | nil => rfl
  | cons s srvs =>
      have hlt : (upstreamRoundRobinGet now (s :: srvs)).1 < (s :: srvs).length :=
        roundRobinGet_lt (by simp) now
      have hshares : (shares now (s :: srvs)).length = (s :: srvs).length := by simp [shares]
      have hcredits : (credits (s :: srvs)).length = (s :: srvs).length := by simp [credits]
      have hlen : (credits (upstreamRoundRobinGet now (s :: srvs)).2).length = (s :: srvs).length := by
        simp [upstreamRoundRobinGet, credits]
      rw [← sum_vec hlen, ← sum_vec hcredits, credits_roundRobinGet,
        vec_charge hshares hcredits ⟨_, hlt⟩, sum_charge]

/-- Only round robin moves credit. -/
theorem sum_credits_choose (ring : List Point) (srvs : List Srv) (c : Choice) :
    (credits (choose ring srvs c).2).sum = (credits srvs).sum := by
  cases c with
  | roundRobin now => exact sum_credits_roundRobinGet now srvs
  | ipHash hash => rfl
  | leastConn now =>
      have hsame (s : Srv) : s.countUp.currentWeight = s.currentWeight := rfl
      exact congrArg List.sum (map_modify_of_eq hsame srvs _)
  | random now now' rand =>
      have hsame (s : Srv) : (s.retry now).currentWeight = s.currentWeight := by
        unfold Srv.retry
        split
        · rfl
        · obtain ⟨w, hw⟩ := s.bump_frame now
          rw [hw]
      simp only [choose, upstreamRandomGet]
      by_cases ht : totalWeight now srvs = 0
      · rw [if_pos ht]
      · rw [if_neg ht]
        simp only [credits, List.map_map, Function.comp_def, hsame]
  | heuristic => rfl

theorem sum_credits_after (ring : List Point) (srvs : List Srv) (e : Event) :
    (credits (after ring srvs e)).sum = (credits srvs).sum := by
  cases e with
  | select c => exact sum_credits_choose ring srvs c
  | connectOk i now =>
      have hsame (s : Srv) : s.connectOk.currentWeight = s.currentWeight := by rw [s.connectOk_eq]
      exact congrArg List.sum (map_modify_of_eq hsame srvs i)
  | connectFail i now =>
      have hsame (s : Srv) : (s.connectFail now).currentWeight = s.currentWeight := by
        obtain ⟨w, t, n, d, h⟩ := s.connectFail_frame now
        rw [h]
      exact congrArg List.sum (map_modify_of_eq hsame srvs i)
  | check i now p =>
      have hsame (s : Srv) : (s.checkTcpCycle p).currentWeight = s.currentWeight := by
        obtain ⟨w, d, n, x, y, h⟩ := s.checkTcpCycle_frame p
        rw [h]
      exact congrArg List.sum (map_modify_of_eq hsame srvs i)

theorem sum_credits_run (ring : List Point) (srvs : List Srv) (es : List Event) :
    (credits (run ring srvs es).2).sum = (credits srvs).sum := by
  induction es generalizing srvs with
  | nil => rfl
  | cons e es ih =>
      rw [run_cons]
      exact (ih _).trans (sum_credits_after ring srvs e)

/-- In every state that selections, connections and probes lead to, in any order and whatever servers
are skipped, the credits of all servers add up to 0. -/
theorem credits_conserved (ring : List Point) (mem : Nat → Srv) (cs : List Conf)
    (es : List Event) : (credits (run ring (confParse mem cs) es).2).sum = 0 := by
  rw [sum_credits_run]
  apply List.sum_eq_zero
  intro x hx
  obtain ⟨s, hs, rfl⟩ := List.mem_map.mp hx
  exact (confParse_fresh mem cs s hs).2.2

end Umicat.Upstream
