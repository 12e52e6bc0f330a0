import Mathlib.Algebra.BigOperators.Fin
import Mathlib.Algebra.Order.BigOperators.Group.List
import Umicat.Base.Credit
import Umicat.Base.Modify
import Umicat.Upstream.Lemmas.Frame

/-!
# Round robin over healthy servers

As long as every server is up with its configured weight, one selection is a round of sharing by
credit, and it depends on the weights and the credits only.
-/

namespace Umicat.Upstream

open Umicat.Base

/-! ## Weights and credits -/

def weights (srvs : List Srv) : List Int := srvs.map (·.weight)

def credits (srvs : List Srv) : List Int := srvs.map (·.currentWeight)

def Steady (srvs : List Srv) : Prop :=
  ∀ s ∈ srvs, s.isDown = false ∧ s.effectiveWeight = s.weight

/-- What each server is credited at `now`. -/
def shares (now : UInt64) (srvs : List Srv) : List Int := srvs.map (Srv.share now)

def raised (ws cs : List Int) : List Int := List.zipWith (· + ·) cs ws

def pick (cs : List Int) : Nat := scan (fun _ => true) id (· > ·) cs 0 0 0

def creditStep (ws cs : List Int) : List Int :=
  (raised ws cs).modify (pick (raised ws cs)) (· - ws.sum)

theorem Srv.skipped_of_up {s : Srv} (h : s.isDown = false) (now : UInt64) :
    s.skipped now = false := by
  simp [Srv.skipped, h]

theorem Srv.bump_of_up {s : Srv} (h : s.isDown = false) (now : UInt64) : s.bump now = s := by
  simp [Srv.bump, h]

theorem Srv.credit_of_up {s : Srv} (h : s.isDown = false) (now : UInt64) :
    s.credit now = { s with currentWeight := s.currentWeight + s.effectiveWeight } := by
  simp [Srv.credit, Srv.skipped_of_up h, Srv.bump_of_up h]

theorem Srv.weight_pay (t : Int) (s : Srv) : (s.pay t).weight = s.weight := rfl

theorem Srv.currentWeight_pay (t : Int) (s : Srv) :
    (s.pay t).currentWeight = s.currentWeight - t := rfl

theorem Srv.currentWeight_credit (now : UInt64) (s : Srv) :
    (s.credit now).currentWeight = s.currentWeight + s.share now := by
  unfold Srv.credit Srv.share
  split
  · exact (Int.add_zero _).symm
  · obtain ⟨w, h⟩ := s.bump_frame now
    rw [h]

theorem credits_credit (now : UInt64) (srvs : List Srv) :
    credits (srvs.map (Srv.credit now)) = raised (shares now srvs) (credits srvs) := by
  simp only [credits, raised, shares, List.map_map, List.zipWith_map, List.zipWith_self]
  exact List.map_congr_left fun s _ => s.currentWeight_credit now

theorem credits_roundRobinGet (now : UInt64) (srvs : List Srv) :
    credits (upstreamRoundRobinGet now srvs).2 =
      (raised (shares now srvs) (credits srvs)).modify (upstreamRoundRobinGet now srvs).1
        (· - (shares now srvs).sum) := by
  rw [← credits_credit]
  exact map_modify (Srv.currentWeight_pay _) _ _

/-! ## One selection -/

theorem Steady.map_credit {srvs : List Srv} (h : Steady srvs) (now : UInt64) :
    Steady (srvs.map (Srv.credit now)) := by
  intro s hs
  obtain ⟨t, ht, rfl⟩ := List.mem_map.mp hs
  obtain ⟨hup, hw⟩ := h t ht
  rw [Srv.credit_of_up hup]
  exact ⟨hup, hw⟩

theorem Steady.weights_credit {srvs : List Srv} (h : Steady srvs) (now : UInt64) :
    weights (srvs.map (Srv.credit now)) = weights srvs := by
  simp only [weights, List.map_map]
  apply List.map_congr_left
  intro s hs
  simp [Srv.credit_of_up (h s hs).1]

theorem Steady.shares_eq {srvs : List Srv} (h : Steady srvs) (now : UInt64) :
    shares now srvs = weights srvs := by
  apply List.map_congr_left
  intro s hs
  obtain ⟨hup, hw⟩ := h s hs
  simp [Srv.share, Srv.skipped_of_up hup, Srv.bump_of_up hup, hw]

theorem Steady.roundRobinBest_eq {srvs : List Srv} (h : Steady srvs) (now : UInt64) :
    roundRobinBest now srvs = pick (credits srvs) := by
  apply scan_all
  intro s hs
  simp [Srv.skipped_of_up (h s hs).1]

theorem Steady.roundRobinGet {srvs : List Srv} (h : Steady srvs) (now : UInt64) :
    (upstreamRoundRobinGet now srvs).1 = pick (raised (weights srvs) (credits srvs)) ∧
    Steady (upstreamRoundRobinGet now srvs).2 ∧
    weights (upstreamRoundRobinGet now srvs).2 = weights srvs ∧
    credits (upstreamRoundRobinGet now srvs).2 = creditStep (weights srvs) (credits srvs) := by
  have hbest : (upstreamRoundRobinGet now srvs).1 = pick (raised (weights srvs) (credits srvs)) := by
    rw [← h.shares_eq now, ← credits_credit]
    exact (h.map_credit now).roundRobinBest_eq now
  refine ⟨hbest, ?_, ?_, ?_⟩
  · exact forall_mem_modify (h.map_credit now) fun _ _ hs => hs
  · exact (map_modify_of_eq (Srv.weight_pay _) _ _).trans (h.weights_credit now)
  · rw [credits_roundRobinGet, hbest, h.shares_eq now, creditStep]

theorem Srv.connectOk_of_steady {s : Srv} (hup : s.isDown = false)
    (hw : s.effectiveWeight = s.weight) :
    s.connectOk = { s with connectionN := s.connectionN + 1 } := by
  simp [Srv.connectOk, hup, hw]

/-! ## Credits as a vector -/

def vec (n : Nat) (l : List Int) : Fin n → ℤ := fun i => l.getD i 0

theorem sum_vec {n : Nat} {l : List Int} (h : l.length = n) : ∑ i, vec n l i = l.sum := by
  subst h
  rw [← Fin.sum_univ_getElem l]
  apply Finset.sum_congr rfl
  intro i _
  simp [vec]

theorem length_raised {n : Nat} {ws cs : List Int} (hw : ws.length = n) (hc : cs.length = n) :
    (raised ws cs).length = n := by
  simp [raised, hw, hc]

theorem vec_raised {n : Nat} {ws cs : List Int} (hw : ws.length = n) (hc : cs.length = n)
    (i : Fin n) : vec n (raised ws cs) i = vec n cs i + vec n ws i := by
  have hci : i.val < cs.length := by omega
  have hwi : i.val < ws.length := by omega
  simp [vec, raised, List.getD_eq_getElem?_getD, List.getElem?_zipWith,
    List.getElem?_eq_getElem hci, List.getElem?_eq_getElem hwi]

theorem pick_pos {cs : List Int} (h : 0 < cs.sum) : ∃ c, cs[pick cs]? = some c ∧ 0 < c := by
  rcases scan_spec (fun _ => true) id (· > ·) cs 0 0 (0 : Int) with
    ⟨_, hno⟩ | ⟨j, c, hj, hc, hbest⟩
  · have := List.sum_le_card_nsmul cs 0 fun c hc => not_lt.mp (hno c hc rfl)
    simp only [nsmul_zero] at this
    omega
  · refine ⟨c, ?_, hc⟩
    rw [pick, hj, Nat.zero_add]
    exact hbest.get

theorem length_creditStep {n : Nat} {ws cs : List Int} (hw : ws.length = n) (hc : cs.length = n) :
    (creditStep ws cs).length = n := by
  simp [creditStep, length_raised hw hc]

theorem vec_charge {n : Nat} {ws cs : List Int} (hw : ws.length = n) (hc : cs.length = n)
    (b : Fin n) :
    vec n ((raised ws cs).modify b (· - ws.sum)) = charge (vec n ws) (vec n cs) b := by
  funext i
  have hi : i.val < (raised ws cs).length := by rw [length_raised hw hc]; exact i.isLt
  rw [charge, sum_vec hw, ← vec_raised hw hc]
  simp only [vec, List.getD_eq_getElem?_getD, List.getElem?_modify, List.getElem?_eq_getElem hi,
    Option.map_eq_map, Option.map_some, Option.getD_some, Fin.ext_iff]
  by_cases hbi : b.val = i.val
  · simp [hbi]
  · have : ¬ i.val = b.val := fun h => hbi h.symm
    simp [hbi, this]

/-- A selection is a round of sharing by credit. -/
theorem shared_creditStep {n : Nat} {ws cs : List Int} {bs : List (Fin n)}
    (hw : ws.length = n) (hc : cs.length = n) (hW : 0 < ws.sum)
    (h : Shared (vec n ws) bs (vec n cs)) :
    ∃ b : Fin n, pick (raised ws cs) = b ∧
      Shared (vec n ws) (bs ++ [b]) (vec n (creditStep ws cs)) := by
  have hsum : (raised ws cs).sum = ws.sum := by
    rw [← sum_vec (length_raised hw hc), Finset.sum_congr rfl fun i _ => vec_raised hw hc i,
      Finset.sum_add_distrib, h.sum_eq_zero, sum_vec hw, zero_add]
  obtain ⟨c, hget, hpos⟩ := pick_pos (hsum ▸ hW)
  have hlt : pick (raised ws cs) < n := by
    rw [← length_raised hw hc]
    exact (List.getElem?_eq_some_iff.mp hget).1
  refine ⟨⟨_, hlt⟩, rfl, ?_⟩
  rw [creditStep, vec_charge hw hc ⟨_, hlt⟩]
  apply h.round
  rw [← vec_raised hw hc]
  simpa [vec, List.getD_eq_getElem?_getD, hget] using hpos

theorem vec_inj {n : Nat} {cs cs' : List Int} (h : cs.length = n) (h' : cs'.length = n)
    (heq : vec n cs = vec n cs') : cs = cs' := by
  apply List.ext_getElem (h.trans h'.symm)
  intro i hi hi'
  have := congrFun heq ⟨i, h ▸ hi⟩
  simpa [vec, hi, hi'] using this

theorem iterate_creditStep {n : Nat} {ws cs : List Int} (hw : ws.length = n) (hc : cs.length = n)
    (hW : 0 < ws.sum) (h : vec n cs = 0) (k : Nat) :
    ((creditStep ws)^[k] cs).length = n ∧
      ∃ ps : List (Fin n), ps.length = k ∧ Shared (vec n ws) ps (vec n ((creditStep ws)^[k] cs)) := by
  induction k with
  | zero => exact ⟨hc, [], rfl, by simpa [h] using Shared.start⟩
  | succ k ih =>
      obtain ⟨hlen, ps, hps, hsh⟩ := ih
      obtain ⟨b, _, hb⟩ := shared_creditStep hw hlen hW hsh
      rw [Function.iterate_succ_apply']
      exact ⟨length_creditStep hw hlen, ps ++ [b], by simp [hps], hb⟩

theorem creditStep_period {n : Nat} {ws cs : List Int} (hn : ws.length = n) (hc : cs.length = n)
    (hw : ∀ i, 0 ≤ vec n ws i) (hW : 0 < ws.sum) (h : vec n cs = 0) :
    (creditStep ws)^[ws.sum.toNat] cs = cs := by
  obtain ⟨hlen, ps, hps, hsh⟩ := iterate_creditStep hn hc hW h ws.sum.toNat
  apply vec_inj hlen hc
  rw [h]
  apply hsh.eq_zero hw (by rwa [sum_vec hn])
  rw [sum_vec hn, hps]
  exact dvd_of_eq (by omega)

/-! ## Runs -/

/-- The steps of a run without failures: round robin selections and successful connections. -/
def Event.Calm : Event → Prop
  | .select (.roundRobin _) => True
  | .connectOk _ _ => True
  | _ => False

theorem Steady.modify_connectOk {srvs : List Srv} (h : Steady srvs) (i : Nat) :
    Steady (srvs.modify i Srv.connectOk) ∧
    weights (srvs.modify i Srv.connectOk) = weights srvs ∧
    credits (srvs.modify i Srv.connectOk) = credits srvs := by
  have hweight (s : Srv) : s.connectOk.weight = s.weight := by rw [s.connectOk_eq]
  have hcredit (s : Srv) : s.connectOk.currentWeight = s.currentWeight := by rw [s.connectOk_eq]
  refine ⟨?_, map_modify_of_eq hweight _ _, map_modify_of_eq hcredit _ _⟩
  apply forall_mem_modify h
  intro s hs _
  rw [Srv.connectOk_of_steady (h s hs).1 (h s hs).2]
  exact h s hs

theorem Steady.step_calm {srvs : List Srv} (h : Steady srvs) (ring : List Point) {e : Event}
    (he : e.Calm) :
    Steady (step ring srvs e).2 ∧ weights (step ring srvs e).2 = weights srvs ∧
    credits (step ring srvs e).2 =
      (creditStep (weights srvs))^[(step ring srvs e).1.toList.length] (credits srvs) := by
  match e, he with
  | .select (.roundRobin now), _ =>
      obtain ⟨_, hs, hw, hc⟩ := h.roundRobinGet now
      exact ⟨hs, hw, hc⟩
  | .connectOk i _, _ => exact h.modify_connectOk i

theorem Steady.run_calm (ring : List Point) {srvs : List Srv} (h : Steady srvs) {es : List Event}
    (hes : ∀ e ∈ es, e.Calm) :
    Steady (run ring srvs es).2 ∧ weights (run ring srvs es).2 = weights srvs ∧
    credits (run ring srvs es).2 =
      (creditStep (weights srvs))^[(run ring srvs es).1.length] (credits srvs) := by
  induction es generalizing srvs with
  | nil => exact ⟨h, rfl, rfl⟩
  | cons e es ih =>
      obtain ⟨hs, hw, hc⟩ := h.step_calm ring (hes e (by simp))
      obtain ⟨hs', hw', hc'⟩ := ih hs fun e' he' => hes e' (by simp [he'])
      refine ⟨hs', hw'.trans hw, ?_⟩
      simp only [run, List.length_append]
      rw [hc', hw, hc, Nat.add_comm, Function.iterate_add_apply]

/-- A run without failures is a sequence of rounds of sharing by credit. -/
theorem Steady.run_shared (ring : List Point) {n : Nat} {ws : List Int} {srvs : List Srv}
    {bs : List (Fin n)} (hn : ws.length = n) (hW : 0 < ws.sum) (h : Steady srvs)
    (hw : weights srvs = ws) (hb : Shared (vec n ws) bs (vec n (credits srvs)))
    {es : List Event} (hes : ∀ e ∈ es, e.Calm) :
    ∃ ps : List (Fin n), (run ring srvs es).1 = ps.map (·.val) ∧
      Shared (vec n ws) (bs ++ ps) (vec n (credits (run ring srvs es).2)) := by
  induction es generalizing srvs bs with
  | nil => exact ⟨[], rfl, by simpa [run_nil] using hb⟩
  | cons e es ih =>
      have hrest : ∀ e' ∈ es, e'.Calm := fun e' he' => hes e' (by simp [he'])
      obtain ⟨hs, hw', _⟩ := h.step_calm ring (hes e (by simp))
      rw [run_cons]
      match e, hes e (by simp) with
      | .select (.roundRobin now), _ =>
          have hlen : (credits srvs).length = n := by rw [← hn, ← hw]; simp [credits, weights]
          obtain ⟨b, hpick, hb'⟩ := shared_creditStep hn hlen hW hb
          obtain ⟨hbest, _, _, hc⟩ := h.roundRobinGet now
          rw [hw] at hbest hc
          have hstep : (step ring srvs (.select (.roundRobin now))).1 = some b.val := by
            simp only [step, choose, hbest, hpick]
          obtain ⟨ps, hps, hps'⟩ :=
            ih hs (hw'.trans hw) (by simpa only [step, choose, hc] using hb') hrest
          exact ⟨b :: ps, by simp [hstep, hps], by simpa using hps'⟩
      | .connectOk i now, _ =>
          obtain ⟨_, _, hc⟩ := h.modify_connectOk i
          have hstep : (step ring srvs (.connectOk i now)).1 = none := rfl
          obtain ⟨ps, hps, hps'⟩ := ih hs (hw'.trans hw) (by simpa only [step, hc] using hb) hrest
          exact ⟨ps, by simp [hstep, hps], hps'⟩

end Umicat.Upstream
