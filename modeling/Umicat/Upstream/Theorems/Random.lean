import Umicat.Base.Lots
import Umicat.Upstream.Lemmas.Select

/-!
# Random selection by weight

The second loop of the random rule is a walk over the weights of the servers that are not skipped.
It returns the server of the lot that the random number draws.
-/

namespace Umicat.Upstream

open Umicat.Base

/-- The lots of the servers at `now`. -/
def srvLots (now : UInt64) (srvs : List Srv) (i : Nat) : List Nat :=
  lots (fun s => (s.openWeight now).toNat) srvs i

variable {now now' : UInt64} {srvs : List Srv}

theorem Srv.openWeight_nonneg {s : Srv} (h : 0 ≤ s.effectiveWeight) (now : UInt64) :
    0 ≤ s.openWeight now := by
  unfold Srv.openWeight
  split
  · exact le_rfl
  · exact h

theorem randomBest_eq (hw : ∀ s ∈ srvs, 0 ≤ s.effectiveWeight) {r : Int} (hr : 0 ≤ r) (i : Nat) :
    randomBest now srvs i r = (srvLots now srvs i)[r.toNat]?.getD 0 := by
  induction srvs generalizing i r with
  | nil => rfl
  | cons s srvs ih =>
      obtain ⟨hs, hw⟩ := List.forall_mem_cons.mp hw
      have hlots : srvLots now (s :: srvs) i =
          List.replicate (s.openWeight now).toNat i ++ srvLots now srvs (i + 1) := rfl
      rw [hlots, randomBest, Srv.openWeight]
      cases hskip : s.skipped now with
      | true =>
          simp only [↓reduceIte, Int.toNat_zero, List.replicate_zero, List.nil_append]
          exact ih hw hr (i + 1)
      | false =>
          simp only [Bool.false_eq_true, ↓reduceIte]
          by_cases hlt : r < s.effectiveWeight
          · have hr' : r.toNat < s.effectiveWeight.toNat := by omega
            simp [hlt, List.getElem?_append_left, hr']
          · have hr' : s.effectiveWeight.toNat ≤ r.toNat := by omega
            have hsub : (r - s.effectiveWeight).toNat = r.toNat - s.effectiveWeight.toNat := by omega
            rw [if_neg hlt, ih hw (by omega) (i + 1), hsub,
              List.getElem?_append_right (by simpa using hr'), List.length_replicate]

theorem length_srvLots (hw : ∀ s ∈ srvs, 0 ≤ s.effectiveWeight) (i : Nat) :
    ((srvLots now srvs i).length : Int) = (srvs.map (Srv.openWeight now)).sum := by
  rw [srvLots, length_lots]
  induction srvs with
  | nil => rfl
  | cons s srvs ih =>
      obtain ⟨hs, hw⟩ := List.forall_mem_cons.mp hw
      have hopen := Srv.openWeight_nonneg hs now
      have ih := ih hw
      simp only [List.map_cons, List.sum_cons, Nat.cast_add] at ih ⊢
      omega

theorem Srv.openWeight_pos {s : Srv} (h : 0 < (s.openWeight now).toNat) :
    s.skipped now = false ∧ 0 < s.effectiveWeight := by
  unfold Srv.openWeight at h
  cases hskip : s.skipped now with
  | true => simp [hskip] at h
  | false =>
      simp only [hskip, Bool.false_eq_true, ↓reduceIte] at h
      exact ⟨rfl, by omega⟩

theorem Srv.openWeight_retry {s : Srv} (h : s.skipped now' = s.skipped now) :
    (s.retry now).openWeight now' = s.share now := by
  unfold Srv.openWeight Srv.share
  rw [(s.quiet_retry now).skipped, h]
  cases hskip : s.skipped now with
  | true => rfl
  | false => simp [Srv.retry, hskip]

theorem nonneg_retry (hw : ∀ s ∈ srvs, 0 ≤ s.effectiveWeight) (now : UInt64) :
    ∀ s ∈ srvs.map (Srv.retry now), 0 ≤ s.effectiveWeight := by
  intro x hx
  obtain ⟨s, hs, rfl⟩ := List.mem_map.mp hx
  exact (s.quiet_retry now).nonneg (hw s hs)

/-- The first loop counts at most the lots of the second. -/
theorem totalWeight_le (hw : ∀ s ∈ srvs, 0 ≤ s.effectiveWeight)
    (hlast : ∀ s ∈ srvs, s.lastFailTime ≤ now) (hle : now ≤ now') :
    totalWeight now srvs ≤ (srvLots now' (srvs.map (Srv.retry now)) 0).length := by
  rw [length_srvLots (nonneg_retry hw now), List.map_map]
  exact List.sum_le_sum fun s hs => Srv.share_le_openWeight (hlast s hs) hle (hw s hs)

theorem totalWeight_eq (hw : ∀ s ∈ srvs, 0 ≤ s.effectiveWeight)
    (hsame : ∀ s ∈ srvs, s.skipped now' = s.skipped now) :
    totalWeight now srvs = (srvLots now' (srvs.map (Srv.retry now)) 0).length := by
  rw [length_srvLots (nonneg_retry hw now), List.map_map]
  exact congrArg List.sum (List.map_congr_left fun s hs => (Srv.openWeight_retry (hsame s hs)).symm)

theorem randomGet_eq (hw : ∀ s ∈ srvs, 0 ≤ s.effectiveWeight) (hpos : 0 < totalWeight now srvs)
    {rand : Int} (hrand : 0 ≤ rand) :
    upstreamRandomGet now now' rand srvs =
      some ((srvLots now' (srvs.map (Srv.retry now)) 0)[(rand.tmod (totalWeight now srvs)).toNat]?.getD 0,
        srvs.map (Srv.retry now)) := by
  simp only [upstreamRandomGet]
  rw [if_neg (ne_of_gt hpos), randomBest_eq (nonneg_retry hw now) (Int.tmod_nonneg _ hrand)]

/-- Every random number gives a server that is not skipped at the second clock reading and has weight;
and when no server is skipped at one reading and not at the other, each server is returned for as
many remainders as it has weight. -/
theorem random_exact (hw : ∀ s ∈ srvs, 0 ≤ s.effectiveWeight)
    (hlast : ∀ s ∈ srvs, s.lastFailTime ≤ now) (hle : now ≤ now')
    (hpos : 0 < totalWeight now srvs) :
    (∀ rand, 0 ≤ rand → ∃ i srvs' s, upstreamRandomGet now now' rand srvs = some (i, srvs') ∧
      srvs'[i]? = some s ∧ s.skipped now' = false ∧ 0 < s.effectiveWeight) ∧
    ((∀ s ∈ srvs, s.skipped now' = s.skipped now) → ∀ i s, srvs[i]? = some s →
      ((List.range (totalWeight now srvs).toNat).countP (fun r : Nat =>
        (upstreamRandomGet now now' r srvs).map Prod.fst = some i) : Int) = s.share now) := by
  refine ⟨fun rand hrand => ?_, fun hsame i s hs => ?_⟩
  · rw [randomGet_eq hw hpos hrand]
    have hlt := Int.tmod_lt_of_pos rand hpos
    have hmin := Int.tmod_nonneg (totalWeight now srvs) hrand
    have hlen := totalWeight_le hw hlast hle
    have hr : (rand.tmod (totalWeight now srvs)).toNat <
        (srvLots now' (srvs.map (Srv.retry now)) 0).length := by omega
    rw [List.getElem?_eq_getElem hr, Option.getD_some]
    obtain ⟨j, s, hj, hs, hopen⟩ := mem_lots (List.getElem_mem hr)
    rw [Nat.zero_add] at hj
    exact ⟨_, _, s, rfl, hj ▸ hs, Srv.openWeight_pos hopen⟩
  · have hlen := totalWeight_eq hw hsame
    have hdraw : (List.range (totalWeight now srvs).toNat).countP (fun r : Nat =>
        (upstreamRandomGet now now' r srvs).map Prod.fst = some i) =
        (srvLots now' (srvs.map (Srv.retry now)) 0).count i := by
      rw [← countP_range_getElem?, hlen, Int.toNat_natCast]
      apply List.countP_congr
      intro r hr
      rw [List.mem_range] at hr
      rw [randomGet_eq hw hpos (Int.natCast_nonneg r), hlen, Int.tmod_eq_of_lt (by omega) (by omega)]
      simp [hr]
    have hretry : (srvs.map (Srv.retry now))[i]? = some (s.retry now) := by simp [hs]
    have hcount := count_lots (w := fun s => (s.openWeight now').toNat) hretry 0
    have hmem := List.mem_of_getElem? hs
    rw [Nat.zero_add, Srv.openWeight_retry (hsame s hmem)] at hcount
    rw [hdraw, srvLots, hcount]
    exact Int.toNat_of_nonneg (Srv.share_nonneg (hw s hmem))

/-- Weights 2, 0 and 1, and a skipped server: of three remainders two give server 0. -/
theorem random_exact_two_thirds :
    let s : Srv := { (default : Srv) with isFallback := true, failTimeout := 10 }
    let srvs := [{ s with effectiveWeight := 2 }, s, { s with isDown := true, lastFailTime := 95 },
      { s with effectiveWeight := 1 }]
    ((List.range 3).countP (fun r : Nat =>
      (upstreamRandomGet 100 101 r srvs).map Prod.fst = some 0) : Int) = 2 := by
  intro s srvs
  have hw : ∀ s ∈ srvs, 0 ≤ s.effectiveWeight := by decide
  have hlast : ∀ s ∈ srvs, s.lastFailTime ≤ 100 := by decide
  have hle : (100 : UInt64) ≤ 101 := by decide
  have htotal : totalWeight 100 srvs = 3 := by decide
  have hsame : ∀ s ∈ srvs, s.skipped 101 = s.skipped 100 := by decide
  have hcount := (random_exact hw hlast hle (by rw [htotal]; decide)).2 hsame 0 _ rfl
  rw [htotal] at hcount
  exact hcount.trans (by decide)

end Umicat.Upstream
