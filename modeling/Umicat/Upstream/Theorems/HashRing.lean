import Umicat.Upstream.Lemmas.HashRing

/-!
# Consistent hashing disturbs few clients
-/

namespace Umicat.Upstream

open Umicat.Base

variable {md5Hash : List UInt8 → UInt64}

/-- `Grow cs cs' p ren`: the configuration `cs'` comes from `cs` by inserting an entry at `p`, or by
raising the weight of the entry at `p`. The entry with index `i` in `cs` has index `ren i` in
`cs'`. -/
inductive Grow : List Conf → List Conf → Nat → (Nat → Nat) → Prop
  | insert (a b : List Conf) (s : Conf) : Grow (a ++ b) (a ++ s :: b) a.length (shift a.length)
  | raise (a b : List Conf) (s : Conf) (w : Int32) (h : s.weight ≤ w) :
      Grow (a ++ s :: b) (a ++ { s with weight := w } :: b) a.length id

/-- The old points are among the new ones, in the same order, and every other point is of the entry
at `p`. -/
theorem Grow.tags (md5Hash : List UInt8 → UInt64) {cs cs' : List Conf} {p : Nat} {ren : Nat → Nat}
    (g : Grow cs cs' p ren) (hw : ∀ c ∈ cs, 0 ≤ c.weight.toInt) :
    ∃ n, (tagsFrom md5Hash 0 cs').filter (!fresh p n ·) =
      (tagsFrom md5Hash 0 cs).map fun t => (⟨t.1.hash, ren t.1.srv⟩, t.2) := by
  cases g with
  | insert a b s => exact ⟨0, tagsFrom_insert a b s⟩
  | raise a b s w h =>
      have hs : 0 ≤ s.weight.toInt := hw s (by simp)
      refine ⟨_, (tagsFrom_raise a b s w (npoints_mono hs h)).trans ?_⟩
      exact (List.map_id _).symm

theorem weight_nonneg_of_ring {mem : Nat → Srv} {cs : List Conf} {ring : List Point}
    (h : upstreamInitHashRing md5Hash (confParse mem cs) = some ring) :
    ∀ c ∈ cs, 0 ≤ c.weight.toInt := by
  intro c hc
  obtain ⟨i, hi, rfl⟩ := List.mem_iff_getElem.mp hc
  exact weight_nonneg_of_npoints (npoints_lt_of_ring h _ (List.mem_mapIdx.mpr ⟨i, hi, rfl⟩))

theorem ring_eq_nil_iff {mem : Nat → Srv} {cs : List Conf} {ring : List Point}
    (h : upstreamInitHashRing md5Hash (confParse mem cs) = some ring) :
    ring = [] ↔ tagsFrom md5Hash 0 cs = [] := by
  unfold upstreamInitHashRing at h
  split at h
  · cases h
    rw [bubbleSort_eq_nil_iff, pushPoints_confParse, List.map_eq_nil_iff]
  · cases h

/-- When a configuration grows, every client hash stays with its server or moves to the server that
was added or got more weight. -/
theorem hashRing_minimal_disruption {mem mem' : Nat → Srv} {cs cs' : List Conf} {p : Nat}
    {ren : Nat → Nat} (g : Grow cs cs' p ren) {ring ring' : List Point}
    (hring : upstreamInitHashRing md5Hash (confParse mem cs) = some ring) (hne : ring ≠ [])
    (hring' : upstreamInitHashRing md5Hash (confParse mem' cs') = some ring') (hash : UInt64) :
    ∃ x x', upstreamGetHashPoint ring hash = some x ∧ upstreamGetHashPoint ring' hash = some x' ∧
      (x'.srv = p ∨ x'.srv = ren x.srv) := by
  obtain ⟨n, htags⟩ := Grow.tags md5Hash g (weight_nonneg_of_ring hring)
  have hne' : ring' ≠ [] := by
    intro h
    rw [(ring_eq_nil_iff hring').mp h] at htags
    exact hne ((ring_eq_nil_iff hring).mpr (List.map_eq_nil_iff.mp htags.symm))
  have howner (cs : List Conf) (h : tagsFrom md5Hash 0 cs ≠ []) :
      ∃ t, owner md5Hash cs hash = some t :=
    firstOrHead_isSome _ (mt bubbleSort_eq_nil_iff.mp h)
  obtain ⟨t, ht⟩ := howner cs (mt (ring_eq_nil_iff hring).mpr hne)
  obtain ⟨t', ht'⟩ := howner cs' (mt (ring_eq_nil_iff hring').mpr hne')
  refine ⟨t.1, t'.1, by rw [upstreamGetHashPoint_ring hring hne, ht]; rfl,
    by rw [upstreamGetHashPoint_ring hring' hne', ht']; rfl, ?_⟩
  rcases firstOrHead_bubbleSort_grow (k := (·.1.hash)) _ _ rfl htags (hash ≤ ·) ht' with h | h
  · left
    simp only [fresh, decide_eq_true_eq] at h
    exact h.1
  · right
    change (owner md5Hash cs hash).map _ = _ at h
    rw [ht] at h
    cases h
    rfl

/-- Two servers of weight 1, with all points of both at one hash, and a third one put before the
second. -/
theorem hashRing_minimal_disruption_collision :
    let c : Conf := ⟨[49], 80, 1, 0, 0, 1, 0, none⟩
    let d : Conf := ⟨[50], 80, 1, 0, 0, 1, 0, none⟩
    let points := bubbleSort Point.hash
      (pushPoints (fun _ => 7) (confParse (fun _ => default) [c, c]))
    let points' := bubbleSort Point.hash
      (pushPoints (fun _ => 7) (confParse (fun _ => default) [c, d, c]))
    ∃ x x', upstreamGetHashPoint points 5 = some x ∧ upstreamGetHashPoint points' 5 = some x' ∧
      (x'.srv = 1 ∨ x'.srv = shift 1 x.srv) := by
  intro c d points points'
  have hring : upstreamInitHashRing (fun _ => 7) (confParse (fun _ => default) [c, c]) =
      some points := if_pos (by decide)
  have hring' : upstreamInitHashRing (fun _ => 7) (confParse (fun _ => default) [c, d, c]) =
      some points' := if_pos (by decide)
  have hne : points ≠ [] := by
    intro h
    have hlen := congrArg List.length h
    rw [(bubbleSort_perm _).length_eq, length_pushPoints] at hlen
    revert hlen
    decide
  exact hashRing_minimal_disruption (.insert [c] [c] d) hring hne hring' 5

end Umicat.Upstream
