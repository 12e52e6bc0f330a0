import Umicat.Base.Fallback
import Umicat.Base.Run
import Umicat.Upstream.Lemmas.RoundRobin
import Umicat.Upstream.Lemmas.Select
import Umicat.Upstream.Theorems.RoundRobin

/-!
# Round robin with servers out of service

While the same servers are skipped and no weight changes, a selection is a round of sharing by
credit among the others. The credits of skipped servers are stale, so the credits that take part need
not add up to 0, and index 0 pays when none of them is positive.
-/

namespace Umicat.Upstream

open Umicat.Base

/-! ## Skipped servers

The loop that looks for the greatest credit starts from index 0 and credit 0. -/

/-- The server that round robin returns at `now` is not skipped. -/
def Served (srvs : List Srv) (now : UInt64) : Prop :=
  ∃ s, srvs[(upstreamRoundRobinGet now srvs).1]? = some s ∧ s.skipped now = false

/-- Server 0 is not skipped, or a server that is not skipped has positive credit once its weight is
added. -/
def Funded (srvs : List Srv) (now : UInt64) : Prop :=
  (∃ s, srvs[0]? = some s ∧ s.skipped now = false) ∨
    ∃ s ∈ srvs, s.skipped now = false ∧ 0 < s.currentWeight + (s.bump now).effectiveWeight

theorem Srv.currentWeight_credit_of_open {now : UInt64} {s : Srv} (h : s.skipped now = false) :
    (s.credit now).currentWeight = s.currentWeight + (s.bump now).effectiveWeight := by
  rw [s.currentWeight_credit now]
  simp [Srv.share, h]

theorem Served.funded {srvs : List Srv} {now : UInt64} (h : Served srvs now) : Funded srvs now := by
  obtain ⟨s, hs, hopen⟩ := h
  rcases roundRobinGet_cases now srvs with ⟨h0, -⟩ | ⟨t, ht, hopen', hpos⟩
  · exact Or.inl ⟨s, h0 ▸ hs, hopen⟩
  · rw [Srv.currentWeight_credit_of_open hopen'] at hpos
    exact Or.inr ⟨t, List.mem_of_getElem? ht, hopen', hpos⟩

theorem Funded.served {srvs : List Srv} {now : UInt64} (h : Funded srvs now) : Served srvs now := by
  have hlen : 0 < srvs.length := by
    rcases h with ⟨s, hs, -⟩ | ⟨s, hs, -⟩
    · exact (List.getElem?_eq_some_iff.mp hs).1
    · exact List.length_pos_of_mem hs
  obtain ⟨s, hs⟩ : ∃ s, srvs[(upstreamRoundRobinGet now srvs).1]? = some s :=
    ⟨_, List.getElem?_eq_getElem (roundRobinGet_lt hlen now)⟩
  refine ⟨s, hs, ?_⟩
  by_contra hskip
  obtain ⟨h0, hno⟩ := roundRobin_skipped hs (by simpa using hskip)
  rcases h with ⟨t, ht, hopen⟩ | ⟨s, hmem, hopen, hpos⟩
  · rw [h0, ht] at hs
    cases hs
    exact hskip hopen
  · apply hno s hmem hopen
    rwa [Srv.currentWeight_credit_of_open hopen]

/-- In every state that selections, connections and probes lead to, in any order, round robin returns
a server that is not skipped if and only if there is credit for one. -/
theorem roundRobin_served_iff (ring : List Point) (mem : Nat → Srv) (cs : List Conf)
    (es : List Event) (now : UInt64) :
    let srvs := (run ring (confParse mem cs) es).2
    Served srvs now ↔ Funded srvs now :=
  ⟨Served.funded, Funded.served⟩

/-- Servers 0 and 1 have weights 1 and 2. Server 1 is selected, server 0 fails and goes down, and
server 1 fails once: its credit is 0 after its weight is added, and server 0 is returned. -/
theorem roundRobin_returns_skipped :
    let c : Conf := ⟨[49], 80, 1, 1, 10, 1, 0, none⟩
    let es := [.select (.roundRobin 100), .connectFail 0 100, .connectFail 1 100]
    let srvs := (run [] (confParse (fun _ => default) [c, { c with weight := 2, maxFails := 2 }]) es).2
    (es.flatMap Event.times).Pairwise (· ≤ ·) ∧
      (∃ s ∈ srvs, s.skipped 101 = false ∧ 0 < s.effectiveWeight) ∧ ¬Served srvs 101 := by
  intro c es srvs
  refine ⟨by decide +kernel, by decide +kernel, ?_⟩
  rintro ⟨s, hs, hopen⟩
  have hskip : (srvs[(upstreamRoundRobinGet 101 srvs).1]?.map (Srv.skipped 101)) = some true := by
    decide +kernel
  rw [hs, Option.map_some, hopen] at hskip
  cases hskip

/-! ## Servers out of service -/

/-- At `now` the servers of `E` are those that are not skipped, and `e` are their weights. -/
def Degraded (E : Finset Nat) (e : Nat → Int) (srvs : List Srv) (now : UInt64) : Prop :=
  ∀ i s, srvs[i]? = some s →
    (i ∈ E ↔ s.skipped now = false) ∧ (i ∈ E → (s.bump now).effectiveWeight = e i)

instance instDecidableDegraded (E : Finset Nat) (e : Nat → Int) (srvs : List Srv) (now : UInt64) :
    Decidable (Degraded E e srvs now) :=
  decidable_of_iff
    (∀ p ∈ srvs.zipIdx, (p.2 ∈ E ↔ p.1.skipped now = false) ∧
      (p.2 ∈ E → (p.1.bump now).effectiveWeight = e p.2))
    ⟨fun h i s hs => h (s, i) (List.mem_zipIdx_iff_getElem?.mpr hs),
      fun h p hp => h p.2 p.1 (List.mem_zipIdx_iff_getElem?.mp hp)⟩

def roundRobinNext (srvs : List Srv) (now : UInt64) : List Srv := (upstreamRoundRobinGet now srvs).2

/-- One call of `uct_upstream_round_robin_get` for each clock value. -/
def calls (nows : List UInt64) : List Event := nows.map fun now => .select (.roundRobin now)

/-! ## Weights and servers as vectors -/

def eligible (n : Nat) (E : Finset Nat) : Finset (Fin n) := {i | i.val ∈ E}

def shareOf (E : Finset Nat) (e : Nat → Int) (i : Nat) : Int := if i ∈ E then e i else 0

def shareVec (n : Nat) (E : Finset Nat) (e : Nat → Int) : Fin n → ℤ := fun i => shareOf E e i

theorem mem_eligible {n : Nat} {E : Finset Nat} {i : Fin n} : i ∈ eligible n E ↔ i.val ∈ E := by
  simp [eligible]

theorem shareVec_of_notMem {n : Nat} {E : Finset Nat} {e : Nat → Int} :
    ∀ i ∉ eligible n E, shareVec n E e i = 0 := by
  intro i hi
  rw [mem_eligible] at hi
  simp [shareVec, shareOf, hi]

theorem shareVec_nonneg {n : Nat} {E : Finset Nat} {e : Nat → Int} (he : ∀ i ∈ E, 0 ≤ e i)
    (i : Fin n) : 0 ≤ shareVec n E e i := by
  unfold shareVec shareOf
  split
  · next hi => exact he i hi
  · exact le_rfl

theorem sum_shareVec {n : Nat} {E : Finset Nat} (hE : ∀ i ∈ E, i < n) (e : Nat → Int) :
    ∑ i, shareVec n E e i = ∑ i ∈ E, e i := by
  have hinter : Finset.range n ∩ E = E :=
    Finset.inter_eq_right.mpr fun i hi => Finset.mem_range.mpr (hE i hi)
  unfold shareVec
  rw [Fin.sum_univ_eq_sum_range (shareOf E e) n]
  unfold shareOf
  rw [Finset.sum_ite_mem, hinter]

/-! ## One call -/

section
variable {E : Finset Nat} {e : Nat → Int} {srvs : List Srv} {now : UInt64}

theorem Degraded.share_eq (h : Degraded E e srvs now) {i : Nat} {s : Srv} (hs : srvs[i]? = some s) :
    s.share now = shareOf E e i := by
  obtain ⟨hmem, hw⟩ := h i s hs
  unfold Srv.share shareOf
  cases hskip : s.skipped now with
  | true =>
      have hi : i ∉ E := fun hi => by simp [hmem.mp hi] at hskip
      simp [hi]
  | false =>
      have hi : i ∈ E := hmem.mpr hskip
      simp [hi, hw hi]

theorem Degraded.vec_shares (h : Degraded E e srvs now) :
    vec srvs.length (shares now srvs) = shareVec srvs.length E e := by
  funext i
  have hs : srvs[i.val]? = some srvs[i.val] := List.getElem?_eq_getElem i.isLt
  simp [vec, shares, shareVec, ← h.share_eq hs]

theorem Degraded.currentWeight_credit (h : Degraded E e srvs now) {i : Fin srvs.length} {s : Srv}
    (hs : srvs[i.val]? = some s) :
    (s.credit now).currentWeight =
      vec srvs.length (credits srvs) i + shareVec srvs.length E e i := by
  have hvec : vec srvs.length (credits srvs) i = s.currentWeight := by
    have hi : srvs[i.val] = s := (List.getElem?_eq_some_iff.mp hs).2
    simp [vec, credits, hi]
  rw [s.currentWeight_credit now, h.share_eq hs, hvec]
  rfl

/-- A call is a round that the returned server pays. -/
theorem Degraded.roundRobinGet (h : Degraded E e srvs now) (hn : 0 < srvs.length) :
    ∃ b : Fin srvs.length, (upstreamRoundRobinGet now srvs).1 = b ∧
      Pays (shareVec srvs.length E e) (eligible srvs.length E) ⟨0, hn⟩
        (vec srvs.length (credits srvs)) b ∧
      vec srvs.length (credits (roundRobinNext srvs now)) =
        charge (shareVec srvs.length E e) (vec srvs.length (credits srvs)) b := by
  have hnext (b : Fin srvs.length) (hb : (upstreamRoundRobinGet now srvs).1 = b) :
      vec srvs.length (credits (roundRobinNext srvs now)) =
        charge (shareVec srvs.length E e) (vec srvs.length (credits srvs)) b := by
    rw [roundRobinNext, credits_roundRobinGet, hb, vec_charge (by simp [shares]) (by simp [credits]),
      h.vec_shares]
  rcases roundRobinGet_cases now srvs with ⟨hb, hno⟩ | ⟨s, hs, hskip, hpos⟩
  · refine ⟨⟨0, hn⟩, hb, Or.inr ⟨rfl, fun i hi => ?_⟩, hnext ⟨0, hn⟩ hb⟩
    have hs : srvs[i.val]? = some srvs[i.val] := List.getElem?_eq_getElem i.isLt
    rw [← h.currentWeight_credit hs]
    exact hno _ (List.mem_of_getElem? hs) ((h i _ hs).1.mp (mem_eligible.mp hi))
  · have hlt : (upstreamRoundRobinGet now srvs).1 < srvs.length := roundRobinGet_lt hn now
    refine ⟨⟨_, hlt⟩, rfl, Or.inl ⟨mem_eligible.mpr ((h _ s hs).1.mpr hskip), ?_⟩, hnext ⟨_, hlt⟩ rfl⟩
    rw [← h.currentWeight_credit (i := ⟨_, hlt⟩) hs]
    exact hpos

end

/-! ## Successive calls -/

/-- Successive calls are successive rounds. -/
theorem run_defaulted (ring : List Point) {n : Nat} (hn : 0 < n) {E : Finset Nat} {e : Nat → Int}
    {c₀ : Fin n → ℤ} {nows : List UInt64} {srvs : List Srv} {bs : List (Fin n)}
    (hlen : srvs.length = n)
    (hstart : Defaulted (shareVec n E e) (eligible n E) ⟨0, hn⟩ c₀ bs (vec n (credits srvs)))
    (h : Along roundRobinNext (Degraded E e) srvs nows) :
    ∃ ps : List (Fin n), (run ring srvs (calls nows)).1 = ps.map (·.val) ∧
      ps.length = nows.length ∧
      ∃ c, Defaulted (shareVec n E e) (eligible n E) ⟨0, hn⟩ c₀ (bs ++ ps) c := by
  induction nows generalizing srvs bs with
  | nil => exact ⟨[], rfl, rfl, _, by simpa using hstart⟩
  | cons now nows ih =>
      subst hlen
      obtain ⟨b, hb, hpays, hnext⟩ := h.1.roundRobinGet hn
      have hlen' : (roundRobinNext srvs now).length = srvs.length :=
        length_choose ring srvs (.roundRobin now)
      obtain ⟨ps, hps, hlenps, c, hc⟩ := ih hlen' (by rw [hnext]; exact hstart.round hpays) h.2
      refine ⟨b :: ps, ?_, by simp [hlenps], c, by simpa using hc⟩
      have hstep : (step ring srvs (.select (.roundRobin now))).1 = some b.val := congrArg some hb
      rw [calls, List.map_cons, run_cons, hstep]
      exact congrArg (b.val :: ·) hps

theorem countP_notMem_val {n : Nat} (E : Finset Nat) (ps : List (Fin n)) :
    (ps.map (·.val)).countP (· ∉ E) = ps.countP (· ∉ eligible n E) := by
  rw [List.countP_map]
  apply List.countP_congr
  intro i _
  simp [mem_eligible]

/-- However the credits start, there is a bound on how far the requests that a server gets are from
its share, and on the requests that skipped servers get. -/
theorem roundRobin_degraded (ring : List Point) (srvs : List Srv) (E : Finset Nat) (e : Nat → Int)
    (hE : ∀ i ∈ E, i < srvs.length) (he : ∀ i ∈ E, 0 ≤ e i) (hT : 0 < ∑ i ∈ E, e i) :
    ∃ C : ℤ, ∀ nows, Along roundRobinNext (Degraded E e) srvs nows →
      let returned := (run ring srvs (calls nows)).1
      (∀ i ∈ E, |(∑ j ∈ E, e j) * returned.count i - nows.length * e i| ≤ C) ∧
      (returned.countP (· ∉ E) : ℤ) ≤ C := by
  have hn : 0 < srvs.length := by
    obtain ⟨i, hi⟩ : E.Nonempty := by
      by_contra hempty
      simp [Finset.not_nonempty_iff_eq_empty.mp hempty] at hT
    exact Nat.zero_lt_of_lt (hE i hi)
  have hsum := sum_shareVec hE e
  have hpos := shareVec_nonneg (n := srvs.length) he
  have hoff := shareVec_of_notMem (n := srvs.length) (E := E) (e := e)
  let B := slack (shareVec srvs.length E e) (vec srvs.length (credits srvs))
  have hB : 0 ≤ B := add_nonneg (Finset.sum_nonneg fun i _ => abs_nonneg _) (hsum ▸ hT.le)
  refine ⟨(srvs.length + 1) * B, fun nows h => ?_⟩
  obtain ⟨ps, hps, hlen, c, hc⟩ := run_defaulted ring hn rfl Defaulted.start h
  simp only [List.nil_append] at hc
  simp only [hps]
  refine ⟨fun i hi => ?_, ?_⟩
  · have hshare := hc.abs_share_le hpos hoff (i := ⟨i, hE i hi⟩) (mem_eligible.mpr hi)
    rw [hsum, hlen, Fintype.card_fin] at hshare
    rw [count_map_val (hE i hi)]
    simpa [shareVec, shareOf, hi] using hshare
  · rw [countP_notMem_val]
    have houtside := hc.outside_le hoff (hsum ▸ hT)
    have hle : B ≤ (srvs.length + 1) * B := by
      have : 0 ≤ (srvs.length : ℤ) * B := mul_nonneg (Int.natCast_nonneg _) hB
      linarith
    exact houtside.trans hle

/-- Server 0 is skipped and holds a credit that the others lack: it is returned first, and then the
others take turns. -/
theorem roundRobin_degraded_stale :
    let s : Srv := { (default : Srv) with effectiveWeight := 1, isFallback := true, failTimeout := 10 }
    let srvs := [{ s with isDown := true, effectiveWeight := 0, currentWeight := 4 },
      { s with currentWeight := -2 }, { s with currentWeight := -2 }]
    let nows := [1, 1, 2, 3, 4, 5]
    (run [] srvs (calls nows)).1 = [0, 0, 1, 2, 1, 2] ∧
      ∃ C : ℤ, |2 * (run [] srvs (calls nows)).1.count 1 - (6 : ℤ)| ≤ C ∧
        ((run [] srvs (calls nows)).1.countP (· ∉ ({1, 2} : Finset Nat)) : ℤ) ≤ C := by
  intro s srvs nows
  obtain ⟨C, hC⟩ := roundRobin_degraded [] srvs {1, 2} (fun _ => 1) (by decide) (by decide)
    (by decide)
  have h := hC nows (by decide +kernel)
  exact ⟨by decide +kernel, C, h.1 1 (by decide), h.2⟩

end Umicat.Upstream
