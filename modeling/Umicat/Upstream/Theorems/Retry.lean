import Umicat.Upstream.Lemmas.RoundRobin
import Umicat.Upstream.Lemmas.Select

/-!
# Down servers after their time-out

Round robin and the least connection rule take a down server in again when its `fail_timeout` is
over. The heuristic rule and the hash ring pass it over for as long as it is down.
-/

namespace Umicat.Upstream

open Umicat.Base

def Srv.restored (s : Srv) : Srv := { s with isDown := false }

/-- Server `i` is down, may be replaced, and failed more than `fail_timeout` ago. -/
def Due (srvs : List Srv) (now : UInt64) (i : Nat) : Prop :=
  ∃ s, srvs[i]? = some s ∧ s.isDown = true ∧ s.isFallback = true ∧
    now - s.lastFailTime > s.failTimeout

/-- Where the code lets a down server in again: under the heuristic rule only as the default index. -/
def TakesBack (srvs : List Srv) (i : Nat) : Choice → Prop
  | .roundRobin _ => True
  | .leastConn _ => True
  | .heuristic =>
      i = 0 ∧ ∀ t ∈ srvs, t.isDown = false ∨ t.isFallback = false → ¬t.traffic < maxIntT
  | .ipHash _ => False
  | .random _ _ _ => False

variable {srvs : List Srv} {now : UInt64} {i : Nat}

/-! ## Round robin and least connections -/

theorem Due.skipped (h : Due srvs now i) {s : Srv} (hs : srvs[i]? = some s) :
    s.skipped now = false := by
  obtain ⟨t, ht, -, -, htime⟩ := h
  cases hs.symm.trans ht
  have hnot : ¬now - s.lastFailTime < s.failTimeout := not_lt.mpr (le_of_lt htime)
  simp [Srv.skipped, hnot]

/-- With server `i` taken for up, every server is the same or is server `i`, and that one has no
greater credit. -/
theorem getElem?_restored (h : Due srvs now i) {k : Nat} {x y : Srv}
    (hx : (srvs.modify i Srv.restored)[k]? = some x) (hy : srvs[k]? = some y) :
    (k ≠ i → x = y) ∧ x.skipped now = y.skipped now ∧ x.connectionN = y.connectionN ∧
      (x.credit now).currentWeight ≤ (y.credit now).currentWeight := by
  rw [List.getElem?_modify, hy] at hx
  by_cases hk : i = k
  · subst hk
    simp only [↓reduceIte, Option.map_eq_map, Option.map_some, Option.some.injEq] at hx
    subst hx
    have hskip := h.skipped hy
    have hup : y.restored.isDown = false := rfl
    refine ⟨fun hne => absurd rfl hne, ?_, rfl, ?_⟩
    · rw [Srv.skipped_of_up hup, hskip]
    · rw [Srv.credit_of_up hup, Srv.currentWeight_credit, Srv.share, if_neg (by simp [hskip])]
      unfold Srv.bump Srv.restored
      split <;> simp
  · simp only [hk, ↓reduceIte, Option.map_eq_map, Option.map_some, Option.some.injEq] at hx
    subst hx
    exact ⟨fun _ => rfl, rfl, rfl, le_rfl⟩

theorem roundRobin_retried (h : Due srvs now i)
    (hup : (upstreamRoundRobinGet now (srvs.modify i Srv.restored)).1 = i) :
    (upstreamRoundRobinGet now srvs).1 = i := by
  refine scan_raise (by simp) (fun k x y hx hy => ?_) hup
  rw [List.getElem?_map] at hx hy
  obtain ⟨x, hx', rfl⟩ := Option.map_eq_some_iff.mp hx
  obtain ⟨y, hy', rfl⟩ := Option.map_eq_some_iff.mp hy
  obtain ⟨hsame, hskip, -, hle⟩ := getElem?_restored h hx' hy'
  refine ⟨fun hne => by rw [hsame hne], ?_, not_lt.mpr hle⟩
  rw [(x.quiet_credit now).skipped, (y.quiet_credit now).skipped, hskip]

theorem leastConn_retried (h : Due srvs now i)
    (hup : (upstreamLeastConnGet now (srvs.modify i Srv.restored)).1 = i) :
    (upstreamLeastConnGet now srvs).1 = i := by
  refine scan_raise (by simp) (fun k x y hx hy => ?_) hup
  obtain ⟨hsame, hskip, hconn, -⟩ := getElem?_restored h hx hy
  exact ⟨hsame, by rw [hskip], by rw [hconn]; exact lt_irrefl _⟩

/-! ## Heuristic and hash ring -/

theorem heuristic_retried_iff (h : Due srvs now i) :
    upstreamHeuristicGet srvs = i ↔ TakesBack srvs i .heuristic := by
  obtain ⟨s, hs, hdown, hfallback, -⟩ := h
  constructor
  · intro hi
    have hs' : srvs[upstreamHeuristicGet srvs]? = some s := by rw [hi, hs]
    obtain ⟨h0, hno⟩ := scan_default (fun s : Srv => !(s.isDown && s.isFallback)) Srv.traffic (· < ·)
      hs' (by simp [hdown, hfallback])
    exact ⟨hi.symm.trans h0, fun t ht hc => hno t ht (t.heuristic_iff.mpr hc)⟩
  · rintro ⟨rfl, hno⟩
    rcases scan_spec (fun s : Srv => !(s.isDown && s.isFallback)) Srv.traffic (· < ·) srvs 0 0 maxIntT
      with ⟨hb, -⟩ | ⟨j, x, -, hlt, hbest⟩
    · exact hb
    · exact absurd hlt (hno x (List.mem_of_getElem? hbest.get) (x.heuristic_iff.mp hbest.eligible))

/-- A down server that may be replaced is never selected on the ring. -/
theorem ipHash_not_down (ring : List Point) {hash : UInt64} {s : Srv} (hs : srvs[i]? = some s)
    (hdown : s.isDown = true) (hfallback : s.isFallback = true) :
    upstreamIpHashGet srvs ring hash ≠ some (some i) := by
  intro h
  unfold upstreamIpHashGet at h
  simp only [Option.bind_eq_bind, Option.bind_eq_some_iff] at h
  obtain ⟨p, -, t, ht, h⟩ := h
  split at h
  · obtain ⟨next, hnext, hi⟩ := Option.bind_eq_some_iff.mp h
    obtain ⟨q, hq, hqi⟩ := Option.map_eq_some_iff.mp (Option.some.inj hi)
    subst hq
    unfold upstreamNextValidPoint at hnext
    simp only [Option.bind_eq_bind, Option.bind_eq_some_iff, Option.some.injEq] at hnext
    obtain ⟨r, -, hfind⟩ := hnext
    have hup := List.find?_some hfind
    rw [hqi, hs] at hup
    simp [hdown] at hup
  · next hcond =>
      cases h
      cases hs.symm.trans ht
      simp [hdown, hfallback] at hcond

/-! ## All rules -/

/-- A down server whose time-out is over, and which would be selected if it were up, is selected if
and only if the rule lets down servers in again. -/
theorem retried_iff (ring : List Point) {hash : UInt64} {c : Choice} (h : Due srvs now i)
    (hc : c ∈ [.roundRobin now, .leastConn now, .heuristic, .ipHash hash])
    (hup : (choose ring (srvs.modify i Srv.restored) c).1 = some i) :
    (choose ring srvs c).1 = some i ↔ TakesBack srvs i c := by
  simp only [List.mem_cons, List.not_mem_nil, or_false] at hc
  rcases hc with rfl | rfl | rfl | rfl
  · exact ⟨fun _ => trivial,
      fun _ => congrArg some (roundRobin_retried h (Option.some.inj hup))⟩
  · exact ⟨fun _ => trivial,
      fun _ => congrArg some (leastConn_retried h (Option.some.inj hup))⟩
  · exact Option.some_inj.trans (heuristic_retried_iff h)
  · obtain ⟨s, hs, hdown, hfallback, -⟩ := h
    refine ⟨fun hi => ?_, False.elim⟩
    simp only [choose, Option.join_eq_some_iff] at hi
    exact ipHash_not_down ring hs hdown hfallback hi

/-- Round robin returns to a server that failed 11 seconds ago. -/
theorem retried_iff_roundRobin :
    let s : Srv := { (default : Srv) with isFallback := true, failTimeout := 10 }
    let srvs := [{ s with effectiveWeight := 1 },
      { s with isDown := true, lastFailTime := 100, currentWeight := 2 }]
    (choose [] srvs (.roundRobin 111)).1 = some 1 := by
  intro s srvs
  have hdue : Due srvs 111 1 := ⟨_, rfl, rfl, rfl, by decide⟩
  have hc : Choice.roundRobin 111 ∈ [.roundRobin 111, .leastConn 111, .heuristic, .ipHash 0] := by
    decide
  exact (retried_iff [] hdue hc (by decide)).mpr trivial

/-- Server 0 failed 11 seconds ago with a time-out of 10 seconds. It has relayed least and owns the
client's point, but the heuristic rule and the hash ring take server 1. -/
theorem down_server_not_retried :
    let s : Srv := { (default : Srv) with isFallback := true, failTimeout := 10 }
    let srvs := [{ s with isDown := true, lastFailTime := 100 }, { s with traffic := 7 }]
    let ring : List Point := [⟨10, 0⟩, ⟨20, 1⟩]
    Due srvs 111 0 ∧
      ((choose ring (srvs.modify 0 Srv.restored) .heuristic).1 = some 0 ∧
        (choose ring srvs .heuristic).1 = some 1) ∧
      (choose ring (srvs.modify 0 Srv.restored) (.ipHash 5)).1 = some 0 ∧
        (choose ring srvs (.ipHash 5)).1 = some 1 := by
  intro s srvs ring
  exact ⟨⟨_, rfl, rfl, rfl, by decide⟩, by decide, by decide⟩

end Umicat.Upstream
