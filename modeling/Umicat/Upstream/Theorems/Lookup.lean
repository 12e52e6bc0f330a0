import Umicat.Upstream.Lemmas.HashRing

/-!
# Construction of the ring and lookup in it

The points of the ring are listed with their replica numbers, so that the order of points of equal
hash can be told.
-/

namespace Umicat.Upstream

open Umicat.Base

variable {md5Hash : List UInt8 → UInt64} {cs : List Conf}

/-- In the order of the configuration, replicas in the order of their numbers. -/
def Listed (t u : Point × Nat) : Prop := t.1.srv < u.1.srv ∨ t.1.srv = u.1.srv ∧ t.2 < u.2

/-- By hash, and points of equal hash as they are listed. -/
def Before (t u : Point × Nat) : Prop :=
  t.1.hash < u.1.hash ∨ t.1.hash = u.1.hash ∧ Listed t u

theorem confTags_listed (c : Conf) (i : Nat) : (confTags md5Hash c i).Pairwise Listed := by
  rw [confTags, numbered, List.pairwise_map]
  exact List.pairwise_lt_range.imp fun h => Or.inr ⟨rfl, h⟩

theorem srv_of_mem_confTags {c : Conf} {i : Nat} {t : Point × Nat} (h : t ∈ confTags md5Hash c i) :
    t.1.srv = i := by
  obtain ⟨j, -, rfl⟩ := List.mem_map.mp h
  rfl

theorem tagsFrom_listed (k : Nat) (cs : List Conf) : (tagsFrom md5Hash k cs).Pairwise Listed := by
  induction cs generalizing k with
  | nil => exact .nil
  | cons c cs ih =>
      rw [tagsFrom_cons, List.pairwise_append]
      refine ⟨confTags_listed c k, ih (k + 1), fun t ht u hu => Or.inl ?_⟩
      rw [srv_of_mem_confTags ht]
      exact (tagsFrom_srv hu).1

theorem countP_tagsFrom (md5Hash : List UInt8 → UInt64) {j : Nat} {c : Conf} (h : cs[j]? = some c) (k : Nat) :
    (tagsFrom md5Hash k cs).countP (·.1.srv = k + j) = npoints (confParseUpstream default c) := by
  induction cs generalizing j k with
  | nil => cases h
  | cons d cs ih =>
      rw [tagsFrom_cons, List.countP_append]
      cases j with
      | zero =>
          cases h
          have hown : (confTags md5Hash c k).countP (·.1.srv = k + 0) =
              npoints (confParseUpstream default c) := by
            rw [List.countP_eq_length.mpr fun t ht => by simp [srv_of_mem_confTags ht]]
            simp [confTags, numbered]
          have hlater : (tagsFrom md5Hash (k + 1) cs).countP (·.1.srv = k + 0) = 0 := by
            refine List.countP_eq_zero.mpr fun t ht => ?_
            have := (tagsFrom_srv ht).1
            simp only [decide_eq_true_eq]
            omega
          rw [hown, hlater, Nat.add_zero]
      | succ j =>
          have hfirst : (confTags md5Hash d k).countP (·.1.srv = k + (j + 1)) = 0 := by
            refine List.countP_eq_zero.mpr fun t ht => ?_
            simp [srv_of_mem_confTags ht]
          have hrest := ih (j := j) (by simpa using h) (k + 1)
          rw [hfirst, Nat.zero_add, ← hrest]
          congr 1
          funext t
          congr 2
          omega

/-- The ring is made of the points as they are listed. -/
theorem init_eq_tags {mem : Nat → Srv} {ring : List Point}
    (h : upstreamInitHashRing md5Hash (confParse mem cs) = some ring) :
    ring = (bubbleSort (·.1.hash) (tagsFrom md5Hash 0 cs)).map Prod.fst := by
  unfold upstreamInitHashRing at h
  split at h
  · cases h
    rw [pushPoints_confParse, bubbleSort_map]
    rfl
  · cases h

theorem length_init {mem : Nat → Srv} {ring : List Point}
    (h : upstreamInitHashRing md5Hash (confParse mem cs) = some ring) :
    ring.length = confPoints cs := by
  have hpush : (pushPoints md5Hash (confParse mem cs)).length = _ := length_pushPoints _
  rw [pushPoints_confParse, List.length_map, sum_npoints] at hpush
  rw [init_eq_tags h, List.length_map, (bubbleSort_perm _).length_eq, hpush]

/-- What `uct_upstream_init_hash_ring` and `uct_upstream_get_hash_point` are for. -/
structure RingCorrect (md5Hash : List UInt8 → UInt64) (cs : List Conf) (ring : List Point) :
    Prop where
  order : ∃ tags : List (Point × Nat), ring = tags.map Prod.fst ∧ tags.Perm (tagsFrom md5Hash 0 cs) ∧
    tags.Pairwise Before
  points : ∀ i c, cs[i]? = some c → (ring.countP (·.srv = i) : Int) = 160 * c.weight.toInt
  number : (ring.length : Int) = 160 * (cs.map (·.weight.toInt)).sum
  lookup : ∀ hash, ∃ p, upstreamGetHashPoint ring hash = some p ∧
    (ring.find? (hash ≤ ·.hash)).or ring.head? = some p

/-- There is a ring if the points fit in memory. It has 160 points for every unit of weight, sorted by
hash with equal hashes in configuration and replica order, and every lookup ends with the first point
at or after the hash, or with the first of all. -/
theorem hashRing_correct (md5Hash : List UInt8 → UInt64) (mem : Nat → Srv) {cs : List Conf}
    (hw : ∀ c ∈ cs, 0 ≤ c.weight.toInt) (hpos : 0 < (cs.map (·.weight.toInt)).sum) :
    ((upstreamInitHashRing md5Hash (confParse mem cs)).isSome ↔
      160 * (cs.map (·.weight.toInt)).sum < maxPoints) ∧
    ∀ ring, upstreamInitHashRing md5Hash (confParse mem cs) = some ring →
      RingCorrect md5Hash cs ring := by
  have hsum := confPoints_of_nonneg hw
  constructor
  · unfold upstreamInitHashRing
    rw [sum_npoints, Option.isSome_ite]
    omega
  · intro ring hring
    have htags := init_eq_tags hring
    have hlen := length_init hring
    have hperm : (bubbleSort (fun t : Point × Nat => t.1.hash) (tagsFrom md5Hash 0 cs)).Perm
        (tagsFrom md5Hash 0 cs) := bubbleSort_perm _
    have hne : ring ≠ [] := by
      rw [← List.length_pos_iff]
      omega
    have hover := ringOver_init hring hne
    refine ⟨⟨_, htags, hperm, bubbleSort_stable (tagsFrom_listed 0 cs)⟩, fun i c hc => ?_, ?_, ?_⟩
    · have hcount := countP_tagsFrom md5Hash hc 0
      rw [Nat.zero_add] at hcount
      rw [htags, List.countP_map, hperm.countP_eq]
      simp only [Function.comp_def, hcount]
      exact npoints_of_nonneg default (hw c (List.mem_of_getElem? hc))
    · rw [hlen, hsum]
    · intro hash
      rw [upstreamGetHashPoint_eq hover.sorted hover.length_lt hne]
      obtain ⟨p, hp⟩ := firstOrHead_isSome (hash ≤ ·.hash) hne
      exact ⟨p, hp, hp⟩

/-- Servers of weights 1 and 2 with all their points at one hash. -/
theorem hashRing_correct_collision :
    let c : Conf := ⟨[49], 80, 1, 0, 0, 1, 0, none⟩
    let cs := [c, { c with weight := 2 }]
    ∃ ring, upstreamInitHashRing (fun _ => 7) (confParse (fun _ => default) cs) = some ring ∧
      RingCorrect (fun _ => 7) cs ring := by
  intro c cs
  have hw : ∀ c ∈ cs, 0 ≤ c.weight.toInt := by decide
  obtain ⟨hsome, hcorrect⟩ := hashRing_correct (fun _ => 7) (fun _ => default) hw (by decide)
  obtain ⟨ring, hring⟩ := Option.isSome_iff_exists.mp (hsome.mpr (by decide))
  exact ⟨ring, hring, hcorrect ring hring⟩

end Umicat.Upstream
