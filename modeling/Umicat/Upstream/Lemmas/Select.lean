import Umicat.Base.Modify
import Umicat.Upstream.Lemmas.Frame

/-!
# Selections

What a selection does to each server, and when it returns a skipped server.
-/

namespace Umicat.Upstream

open Umicat.Base

/-! ## Selections leave the failure record alone -/

/-- From `s` to `s'` only credits, counters and a retry weight have changed. -/
structure Quiet (s s' : Srv) : Prop where
  static : s'.static = s.static
  isDown : s'.isDown = s.isDown
  lastFailTime : s'.lastFailTime = s.lastFailTime
  nonneg : 0 ≤ s.effectiveWeight → 0 ≤ s'.effectiveWeight

theorem Quiet.refl (s : Srv) : Quiet s s := ⟨rfl, rfl, rfl, id⟩

theorem Quiet.trans {s t u : Srv} (h : Quiet s t) (h' : Quiet t u) : Quiet s u :=
  ⟨h'.static.trans h.static, h'.isDown.trans h.isDown, h'.lastFailTime.trans h.lastFailTime,
    fun h0 => h'.nonneg (h.nonneg h0)⟩

theorem Quiet.skipped {s s' : Srv} (h : Quiet s s') (now : UInt64) :
    s'.skipped now = s.skipped now := by
  have hfallback : s'.isFallback = s.isFallback := congrArg Srv.Static.isFallback h.static
  have htimeout : s'.failTimeout = s.failTimeout := congrArg Srv.Static.failTimeout h.static
  unfold Srv.skipped
  rw [h.isDown, hfallback, h.lastFailTime, htimeout]

theorem Srv.quiet_bump (now : UInt64) (s : Srv) : Quiet s (s.bump now) := by
  obtain ⟨w, h⟩ := s.bump_frame now
  refine ⟨s.static_bump now, by rw [h], by rw [h], ?_⟩
  unfold Srv.bump
  split
  · intro h
    exact Int.le_add_one h
  · exact id

theorem Srv.quiet_credit (now : UInt64) (s : Srv) : Quiet s (s.credit now) := by
  unfold Srv.credit
  split
  · exact Quiet.refl s
  · obtain ⟨hstatic, hdown, hlast, hnonneg⟩ := s.quiet_bump now
    exact ⟨hstatic, hdown, hlast, hnonneg⟩

theorem Srv.quiet_retry (now : UInt64) (s : Srv) : Quiet s (s.retry now) := by
  unfold Srv.retry
  split
  · exact Quiet.refl s
  · exact s.quiet_bump now

theorem Srv.quiet_pay (t : Int) (s : Srv) : Quiet s (s.pay t) := ⟨rfl, rfl, rfl, id⟩

theorem Srv.quiet_countUp (s : Srv) : Quiet s s.countUp := ⟨rfl, rfl, rfl, id⟩

/-- What a selection can do to a server. -/
inductive Srv.Touched (s : Srv) : Srv → Prop
  | same : s.Touched s
  | countUp : s.Touched s.countUp
  | credit (now : UInt64) : s.Touched (s.credit now)
  | pay (now : UInt64) (total : Int) : s.Touched ((s.credit now).pay total)
  | retry (now : UInt64) : s.Touched (s.retry now)

theorem Srv.Touched.quiet {s s' : Srv} (h : s.Touched s') : Quiet s s' := by
  cases h with
  | same => exact Quiet.refl s
  | countUp => exact s.quiet_countUp
  | credit now => exact s.quiet_credit now
  | pay now total => exact (s.quiet_credit now).trans ((s.credit now).quiet_pay total)
  | retry now => exact s.quiet_retry now

theorem length_choose (ring : List Point) (srvs : List Srv) (c : Choice) :
    (choose ring srvs c).2.length = srvs.length := by
  cases c with
  | roundRobin now => simp [choose, upstreamRoundRobinGet]
  | ipHash hash => rfl
  | leastConn now => simp [choose, upstreamLeastConnGet]
  | random now now' rand =>
      simp only [choose, upstreamRandomGet]
      by_cases ht : totalWeight now srvs = 0
      · rw [if_pos ht]
      · rw [if_neg ht, List.length_map]
  | heuristic => rfl

theorem touched_choose (ring : List Point) {srvs : List Srv} (c : Choice) {i : Nat} {s : Srv}
    (h : srvs[i]? = some s) : ∃ s', (choose ring srvs c).2[i]? = some s' ∧ s.Touched s' := by
  cases c with
  | roundRobin now =>
      have hcredit : (srvs.map (Srv.credit now))[i]? = some (s.credit now) := by simp [h]
      simp only [choose, upstreamRoundRobinGet]
      rw [List.getElem?_modify, hcredit]
      by_cases hi : roundRobinBest now (srvs.map (Srv.credit now)) = i
      · exact ⟨_, by simp [hi], .pay now (totalWeight now srvs)⟩
      · exact ⟨_, by simp [hi], .credit now⟩
  | ipHash hash => exact ⟨s, h, .same⟩
  | leastConn now =>
      simp only [choose]
      rw [upstreamLeastConnGet, List.getElem?_modify, h]
      split
      · exact ⟨_, rfl, .countUp⟩
      · exact ⟨_, rfl, .same⟩
  | random now now' rand =>
      simp only [choose, upstreamRandomGet]
      by_cases ht : totalWeight now srvs = 0
      · rw [if_pos ht]
        exact ⟨s, h, .same⟩
      · rw [if_neg ht]
        exact ⟨s.retry now, by simp [h], .retry now⟩
  | heuristic => exact ⟨s, h, .same⟩

theorem getElem?_choose (ring : List Point) {srvs : List Srv} (c : Choice) {i : Nat} {s : Srv}
    (h : srvs[i]? = some s) : ∃ s', (choose ring srvs c).2[i]? = some s' ∧ Quiet s s' := by
  obtain ⟨s', hs', ht⟩ := touched_choose ring c h
  exact ⟨s', hs', ht.quiet⟩

/-! ## The returned index -/

theorem roundRobinGet_lt {srvs : List Srv} (h : 0 < srvs.length) (now : UInt64) :
    (upstreamRoundRobinGet now srvs).1 < srvs.length := by
  have hlen : 0 < (srvs.map (Srv.credit now)).length := by simpa using h
  have hlt := scan_lt (fun s : Srv => !s.skipped now) Srv.currentWeight (· > ·) hlen 0
  rwa [List.length_map] at hlt

/-! ## The configuration stays -/

theorem static_choose (ring : List Point) (srvs : List Srv) (c : Choice) :
    (choose ring srvs c).2.map Srv.static = srvs.map Srv.static := by
  apply List.ext_getElem?
  intro i
  rw [List.getElem?_map, List.getElem?_map]
  cases h : srvs[i]? with
  | none =>
      have hnone : (choose ring srvs c).2[i]? = none := by
        rw [List.getElem?_eq_none_iff, length_choose]
        exact List.getElem?_eq_none_iff.mp h
      rw [hnone]
  | some s =>
      obtain ⟨s', hs', hq⟩ := getElem?_choose ring c h
      rw [hs', Option.map_some, Option.map_some, hq.static]

theorem static_step (ring : List Point) (srvs : List Srv) (e : Event) :
    (step ring srvs e).2.map Srv.static = srvs.map Srv.static := by
  cases e with
  | select c => exact static_choose ring srvs c
  | connectOk i now => exact map_modify_of_eq Srv.static_connectOk srvs i
  | connectFail i now => exact map_modify_of_eq (Srv.static_connectFail now) srvs i
  | check i now p => exact map_modify_of_eq (Srv.static_checkTcpCycle p) srvs i

/-- No run changes what was configured. -/
theorem static_run (ring : List Point) (srvs : List Srv) (es : List Event) :
    (run ring srvs es).2.map Srv.static = srvs.map Srv.static := by
  induction es generalizing srvs with
  | nil => rfl
  | cons e es ih =>
      rw [run_cons]
      exact (ih _).trans (static_step ring srvs e)

/-! ## Skipped servers -/

/-- Round robin returns the server of some positive credit, or index 0 when there is none. -/
theorem roundRobinGet_cases (now : UInt64) (srvs : List Srv) :
    ((upstreamRoundRobinGet now srvs).1 = 0 ∧
      ∀ s ∈ srvs, s.skipped now = false → (s.credit now).currentWeight ≤ 0) ∨
    ∃ s, srvs[(upstreamRoundRobinGet now srvs).1]? = some s ∧ s.skipped now = false ∧
      0 < (s.credit now).currentWeight := by
  have hopen (s : Srv) : (!(s.credit now).skipped now) = !s.skipped now := by
    rw [(s.quiet_credit now).skipped]
  rcases scan_spec (fun s : Srv => !s.skipped now) Srv.currentWeight (· > ·)
      (srvs.map (Srv.credit now)) 0 0 0 with ⟨hb, hno⟩ | ⟨j, x, hb, hpos, hbest⟩
  · refine Or.inl ⟨hb, fun s hs hskip => ?_⟩
    exact not_lt.mp (hno _ (List.mem_map_of_mem hs) (by simp [hopen, hskip]))
  · have hbj : (upstreamRoundRobinGet now srvs).1 = j := hb.trans (Nat.zero_add j)
    have hget := hbest.get
    rw [List.getElem?_map] at hget
    obtain ⟨s, hs, rfl⟩ := Option.map_eq_some_iff.mp hget
    have helig := hbest.eligible
    rw [hopen] at helig
    exact Or.inr ⟨s, hbj ▸ hs, by simpa using helig, hpos⟩

/-- Round robin returns a skipped server only when no other one has positive credit. -/
theorem roundRobin_skipped {now : UInt64} {srvs : List Srv} {s : Srv}
    (h : srvs[(upstreamRoundRobinGet now srvs).1]? = some s) (hs : s.skipped now = true) :
    (upstreamRoundRobinGet now srvs).1 = 0 ∧
      ∀ t ∈ srvs, t.skipped now = false → ¬0 < (t.credit now).currentWeight := by
  rcases roundRobinGet_cases now srvs with ⟨h0, hno⟩ | ⟨t, ht, hopen, -⟩
  · exact ⟨h0, fun t ht hskip => not_lt.mpr (hno t ht hskip)⟩
  · cases h.symm.trans ht
    exact absurd (hs.symm.trans hopen) (by simp)

theorem leastConn_skipped {now : UInt64} {srvs : List Srv} {s : Srv}
    (h : srvs[(upstreamLeastConnGet now srvs).1]? = some s) (hs : s.skipped now = true) :
    (upstreamLeastConnGet now srvs).1 = 0 ∧
      ∀ t ∈ srvs, t.skipped now = false → ¬t.connectionN < maxIntT := by
  obtain ⟨h0, hno⟩ := scan_default (fun s : Srv => !s.skipped now) Srv.connectionN (· < ·) h
    (by simp [hs])
  exact ⟨h0, fun t ht hskip => hno t ht (by simp [hskip])⟩

/-- The heuristic rule passes a server over just when it is down and may be replaced. -/
theorem Srv.heuristic_iff (s : Srv) :
    (!(s.isDown && s.isFallback)) = true ↔ s.isDown = false ∨ s.isFallback = false := by
  cases s.isDown <;> cases s.isFallback <;> simp

def Srv.openWeight (now : UInt64) (s : Srv) : Int := if s.skipped now then 0 else s.effectiveWeight

theorem randomBest_open {now : UInt64} {srvs : List Srv} (hw : ∀ s ∈ srvs, 0 ≤ s.effectiveWeight)
    {r : Int} (hr : r < (srvs.map (Srv.openWeight now)).sum)
    (hpos : 0 < (srvs.map (Srv.openWeight now)).sum) (i : Nat) :
    ∃ j s, randomBest now srvs i r = i + j ∧ srvs[j]? = some s ∧ s.skipped now = false := by
  induction srvs generalizing i r with
  | nil => simp at hpos
  | cons s srvs ih =>
      obtain ⟨hs, hw⟩ := List.forall_mem_cons.mp hw
      simp only [List.map_cons, List.sum_cons, Srv.openWeight] at hr hpos
      unfold randomBest
      cases hskip : s.skipped now with
      | true =>
          simp only [hskip, ↓reduceIte, zero_add] at hr hpos ⊢
          obtain ⟨j, t, hbest, ht, hopen⟩ := ih hw hr hpos (i + 1)
          exact ⟨j + 1, t, by omega, by simpa using ht, hopen⟩
      | false =>
          simp only [hskip, Bool.false_eq_true, ↓reduceIte] at hr hpos ⊢
          by_cases hlt : r < s.effectiveWeight
          · exact ⟨0, s, by simp [hlt], rfl, hskip⟩
          · rw [if_neg hlt]
            have htail : r - s.effectiveWeight < (srvs.map (Srv.openWeight now)).sum :=
              Int.sub_left_lt_of_lt_add hr
            have h0 : 0 ≤ r - s.effectiveWeight := Int.sub_nonneg.mpr (not_lt.mp hlt)
            obtain ⟨j, t, hbest, ht, hopen⟩ := ih hw htail (lt_of_le_of_lt h0 htail) (i + 1)
            exact ⟨j + 1, t, by omega, by simpa using ht, hopen⟩

theorem Srv.skipped_earlier {now now' : UInt64} {s : Srv} (hlast : s.lastFailTime ≤ now)
    (hle : now ≤ now') (h : s.skipped now' = true) : s.skipped now = true := by
  simp only [Srv.skipped, Bool.and_eq_true, decide_eq_true_eq] at h ⊢
  refine ⟨h.1, lt_of_le_of_lt ?_ h.2⟩
  have hnat := UInt64.le_iff_toNat_le.mp hle
  rw [UInt64.le_iff_toNat_le, UInt64.toNat_sub_of_le _ _ hlast,
    UInt64.toNat_sub_of_le _ _ (hlast.trans hle)]
  omega

theorem Srv.share_le_openWeight {now now' : UInt64} {s : Srv} (hlast : s.lastFailTime ≤ now)
    (hle : now ≤ now') (hw : 0 ≤ s.effectiveWeight) :
    s.share now ≤ (s.retry now).openWeight now' := by
  have hretry := s.quiet_retry now
  unfold Srv.share Srv.openWeight
  rw [hretry.skipped]
  split
  · split
    · exact le_rfl
    · exact hretry.nonneg hw
  · next hskip =>
      rw [if_neg fun h => hskip (Srv.skipped_earlier hlast hle h)]
      simp [Srv.retry, hskip]

theorem Srv.share_nonneg {now : UInt64} {s : Srv} (hw : 0 ≤ s.effectiveWeight) :
    0 ≤ s.share now := by
  unfold Srv.share
  split
  · exact le_rfl
  · exact (s.quiet_bump now).nonneg hw

theorem totalWeight_nonneg {now : UInt64} {srvs : List Srv}
    (hw : ∀ s ∈ srvs, 0 ≤ s.effectiveWeight) : 0 ≤ totalWeight now srvs := by
  apply List.sum_nonneg
  intro x hx
  obtain ⟨s, hs, rfl⟩ := List.mem_map.mp hx
  exact Srv.share_nonneg (hw s hs)

/-- The random rule never returns a server that is skipped at its second clock reading. -/
theorem random_open {now now' : UInt64} {rand : Int} {srvs : List Srv} {i : Nat} {s : Srv}
    (hw : ∀ s ∈ srvs, 0 ≤ s.effectiveWeight) (hlast : ∀ s ∈ srvs, s.lastFailTime ≤ now)
    (hle : now ≤ now') {srvs' : List Srv}
    (h : upstreamRandomGet now now' rand srvs = some (i, srvs')) (hs : srvs[i]? = some s) :
    s.skipped now' = false := by
  simp only [upstreamRandomGet] at h
  split at h
  · cases h
  · next htotal =>
      cases h
      have hsum : totalWeight now srvs ≤
          ((srvs.map (Srv.retry now)).map (Srv.openWeight now')).sum := by
        rw [List.map_map]
        exact List.sum_le_sum fun s hs => Srv.share_le_openWeight (hlast s hs) hle (hw s hs)
      have hpos : 0 < totalWeight now srvs := by
        exact lt_of_le_of_ne (totalWeight_nonneg hw) fun he => htotal he.symm
      have hretry : ∀ s ∈ srvs.map (Srv.retry now), 0 ≤ s.effectiveWeight := by
        intro x hx
        obtain ⟨s, hs, rfl⟩ := List.mem_map.mp hx
        exact (s.quiet_retry now).nonneg (hw s hs)
      obtain ⟨j, t, hbest, ht, hopen⟩ := randomBest_open hretry
        (lt_of_lt_of_le (Int.tmod_lt_of_pos rand hpos) hsum) (lt_of_lt_of_le hpos hsum) 0
      rw [hbest, Nat.zero_add] at hs
      rw [List.getElem?_map, hs] at ht
      cases ht
      rwa [(s.quiet_retry now).skipped] at hopen

end Umicat.Upstream
