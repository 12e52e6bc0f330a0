import Umicat.Upstream.HashRing

/-!
# The ring as a stable sort, the search as a lookup on a circle

The binary search stops within its rounds and finds the first point that is not below the hash, so
a lookup is a function of the order of the points alone. The points of a configuration are listed
with the entry that they come from, which is what two configurations are compared by.
-/

namespace Umicat.Upstream

open Umicat.Base

variable {points : List Point} {hash : UInt64}

/-! ## Binary search -/

/-- The first point that is not below `hash` lies in `[i, j]`, or there is none and `j` is last. -/
structure Bracket (points : List Point) (hash : UInt64) (i j : Nat) : Prop where
  le : i ≤ j
  lt : j < points.length
  below : ∀ k p, k < i → points[k]? = some p → p.hash < hash
  above : j + 1 = points.length ∨ ∀ p, points[j]? = some p → hash ≤ p.hash

theorem Bracket.left {i j k : Nat} {p : Point} (hs : points.Pairwise (·.hash ≤ ·.hash))
    (b : Bracket points hash i j) (hk : k < j) (hp : points[k]? = some p) (hlt : p.hash < hash) :
    Bracket points hash (k + 1) j := by
  refine ⟨hk, b.lt, fun l q hl hq => ?_, b.above⟩
  rcases Nat.lt_succ_iff_lt_or_eq.mp hl with hlk | rfl
  · obtain ⟨hl', rfl⟩ := List.getElem?_eq_some_iff.mp hq
    obtain ⟨hk', rfl⟩ := List.getElem?_eq_some_iff.mp hp
    exact lt_of_le_of_lt (List.pairwise_iff_getElem.mp hs _ _ hl' hk' hlk) hlt
  · rw [hp] at hq
    cases hq
    exact hlt

theorem Bracket.right {i j k : Nat} {p : Point} (b : Bracket points hash i j) (hik : i ≤ k)
    (hk : k < j) (hp : points[k]? = some p) (hle : ¬p.hash < hash) :
    Bracket points hash i k := by
  refine ⟨hik, hk.trans b.lt, b.below, Or.inr fun q hq => ?_⟩
  rw [hp] at hq
  cases hq
  exact not_lt.mp hle

/-- `fuel` rounds are enough for fewer than `2 ^ (fuel - 1)` indices. -/
theorem searchLoop_spec (hs : points.Pairwise (·.hash ≤ ·.hash)) (hlen : points.length < 2 ^ 63)
    (fuel i j : Nat) (b : Bracket points hash i j) (hf : j - i < 2 ^ fuel) :
    ∃ r, searchLoop points hash (fuel + 1) i j = some r ∧ Bracket points hash r r := by
  induction fuel generalizing i j with
  | zero =>
      have hij : i = j := by
        have := b.le
        omega
      subst hij
      exact ⟨i, by simp [searchLoop], b⟩
  | succ fuel ih =>
      by_cases hij : i < j
      · have hk : (i + j) % 2 ^ 64 / 2 = (i + j) / 2 := by
          have := b.lt
          omega
        have hkj : (i + j) / 2 < j := by omega
        obtain ⟨p, hp⟩ : ∃ p, points[(i + j) / 2]? = some p :=
          ⟨_, List.getElem?_eq_getElem (hkj.trans b.lt)⟩
        rw [searchLoop]
        simp only [hij, ↓reduceIte, hk, hp, Option.bind_eq_bind, Option.bind_some]
        split
        · next hlt => exact ih _ _ (b.left hs hkj hp hlt) (by omega)
        · next hle => exact ih _ _ (b.right (by omega) hkj hp hle) (by omega)
      · have : i = j := le_antisymm b.le (not_lt.mp hij)
        subst this
        exact ⟨i, by simp [searchLoop], b⟩

theorem search_bracket (hs : points.Pairwise (·.hash ≤ ·.hash)) (hlen : points.length < 2 ^ 63)
    (hne : points ≠ []) (hash : UInt64) :
    lastIndex points = points.length - 1 ∧
      ∃ r, searchLoop points hash 65 0 (lastIndex points) = some r ∧ Bracket points hash r r := by
  have hpos : 0 < points.length := List.length_pos_iff.mpr hne
  have hlast : lastIndex points = points.length - 1 := by
    unfold lastIndex
    omega
  have b : Bracket points hash 0 (points.length - 1) :=
    ⟨Nat.zero_le _, by omega, fun k p hk => absurd hk (Nat.not_lt_zero k), Or.inl (by omega)⟩
  rw [hlast]
  exact ⟨rfl, searchLoop_spec hs hlen 64 _ _ b (by omega)⟩

/-- Lookup: the first point at or after `hash`, or the first point of all. -/
theorem upstreamGetHashPoint_eq (hs : points.Pairwise (·.hash ≤ ·.hash))
    (hlen : points.length < 2 ^ 63) (hne : points ≠ []) :
    upstreamGetHashPoint points hash = firstOrHead (hash ≤ ·.hash) points := by
  obtain ⟨hlast, r, hr, b⟩ := search_bracket hs hlen hne hash
  rw [hlast] at hr
  obtain ⟨p, hp⟩ : ∃ p, points[r]? = some p := ⟨_, List.getElem?_eq_getElem b.lt⟩
  have hsplit : points = points.take r ++ p :: points.drop (r + 1) := by
    obtain ⟨h, rfl⟩ := List.getElem?_eq_some_iff.mp hp
    simp
  have htake : ∀ q ∈ points.take r, q.hash < hash := fun q hq => by
    obtain ⟨k, hk, rfl⟩ := List.mem_iff_getElem.mp hq
    simp only [List.length_take, lt_inf_iff] at hk
    exact b.below k _ hk.1 (by simp [List.getElem?_eq_getElem hk.2])
  have hget : upstreamGetHashPoint points hash = points[if p.hash < hash then 0 else r]? := by
    unfold upstreamGetHashPoint
    simp only [hlast, hr, Option.bind_eq_bind, Option.bind_some, hp, Option.map_some]
    by_cases hrl : r = points.length - 1
    · simp [hrl]
    · have : hash ≤ p.hash := (b.above.resolve_left (by omega)) p hp
      have hgt : ¬r > points.length - 1 := by
        have := b.lt
        omega
      simp [hrl, hgt, not_lt.mpr this]
  rw [hget]
  by_cases hph : p.hash < hash
  · -- only the last point can be below the hash here, so all are
    have hr1 : r + 1 = points.length := b.above.resolve_right fun h => absurd (h p hp) (not_le.mpr hph)
    have hnone : points.find? (hash ≤ ·.hash) = none := by
      rw [List.find?_eq_none, hsplit]
      intro q hq
      simp only [hr1, List.drop_length, List.mem_append, List.mem_singleton] at hq
      rcases hq with hq | rfl
      · simpa using htake q hq
      · simpa using hph
    simp [firstOrHead, hnone, hph, List.head?_eq_getElem?]
  · have hsome : points.find? (hash ≤ ·.hash) = some p := by
      rw [List.find?_eq_some_iff_append]
      exact ⟨by simpa using hph, _, _, hsplit, fun q hq => by simpa using htake q hq⟩
    simp [firstOrHead, hsome, hph, hp]

/-! ## The owner of a hash -/

def ownerIndex (points : List Point) (hash : UInt64) : Nat :=
  (points.findIdx? (hash ≤ ·.hash)).getD 0

theorem upstreamGetHashPoint_owner (hs : points.Pairwise (·.hash ≤ ·.hash))
    (hlen : points.length < 2 ^ 63) (hne : points ≠ []) (hash : UInt64) :
    upstreamGetHashPoint points hash = points[ownerIndex points hash]? := by
  rw [upstreamGetHashPoint_eq hs hlen hne, firstOrHead, List.find?_eq_bind_findIdx?_getElem?,
    ownerIndex]
  cases h : points.findIdx? (hash ≤ ·.hash) with
  | none => simp [List.head?_eq_getElem?]
  | some i =>
      obtain ⟨hi, -⟩ := List.findIdx?_eq_some_iff_getElem.mp h
      simp [hi]

/-- No point before the owner's has the owner's hash. -/
theorem lt_owner_hash {k : Nat} {p q : Point} (hk : k < ownerIndex points hash)
    (hp : points[k]? = some p) (hq : points[ownerIndex points hash]? = some q) :
    p.hash < q.hash := by
  unfold ownerIndex at hk hq
  cases h : points.findIdx? (hash ≤ ·.hash) with
  | none => simp [h] at hk
  | some i =>
      rw [h, Option.getD_some] at hk hq
      obtain ⟨hi, hle, hlt⟩ := List.findIdx?_eq_some_iff_getElem.mp h
      obtain ⟨-, rfl⟩ := List.getElem?_eq_some_iff.mp hp
      obtain ⟨-, rfl⟩ := List.getElem?_eq_some_iff.mp hq
      exact lt_of_lt_of_le (by simpa using hlt k hk) (by simpa using hle)

/-- The search for the owner's hash ends at the owner's point. -/
theorem search_owner (hs : points.Pairwise (·.hash ≤ ·.hash)) (hlen : points.length < 2 ^ 63)
    {p : Point} (hp : points[ownerIndex points hash]? = some p) :
    searchLoop points p.hash 65 0 (lastIndex points) = some (ownerIndex points hash) := by
  have hne : points ≠ [] := List.ne_nil_of_mem (List.mem_of_getElem? hp)
  obtain ⟨-, r, hr, b⟩ := search_bracket hs hlen hne p.hash
  have hlt : ownerIndex points hash < points.length := (List.getElem?_eq_some_iff.mp hp).1
  obtain ⟨q, hq⟩ : ∃ q, points[r]? = some q := ⟨_, List.getElem?_eq_getElem b.lt⟩
  rw [hr]
  rcases Nat.lt_trichotomy r (ownerIndex points hash) with hro | hro | hro
  · have hbelow := lt_owner_hash hro hq hp
    rcases b.above with hend | hle
    · omega
    · exact absurd hbelow (not_lt.mpr (hle q hq))
  · rw [hro]
  · exact absurd (b.below _ p hro hp) (lt_irrefl _)

/-! ## Points with their numbers -/

variable {md5Hash : List UInt8 → UInt64}

def numbered (f : Nat → UInt64) (i n : Nat) : List (Point × Nat) :=
  (List.range n).map fun j => (⟨f j, i⟩, j)

def confTags (md5Hash : List UInt8 → UInt64) (c : Conf) (i : Nat) : List (Point × Nat) :=
  numbered (fun j => md5Hash (hashKey (confParseUpstream default c) j)) i
    (npoints (confParseUpstream default c))

def tagsFrom (md5Hash : List UInt8 → UInt64) (k : Nat) (cs : List Conf) : List (Point × Nat) :=
  (cs.zipIdx k).flatMap fun (c, i) => confTags md5Hash c i

theorem tagsFrom_append (k : Nat) (a b : List Conf) :
    tagsFrom md5Hash k (a ++ b) = tagsFrom md5Hash k a ++ tagsFrom md5Hash (k + a.length) b := by
  simp [tagsFrom, List.zipIdx_append]

theorem tagsFrom_cons (k : Nat) (c : Conf) (cs : List Conf) :
    tagsFrom md5Hash k (c :: cs) = confTags md5Hash c k ++ tagsFrom md5Hash (k + 1) cs := by
  simp [tagsFrom, List.zipIdx_cons]

theorem tagsFrom_srv {k : Nat} {cs : List Conf} {t : Point × Nat} (h : t ∈ tagsFrom md5Hash k cs) :
    k ≤ t.1.srv ∧ t.1.srv < k + cs.length := by
  simp only [tagsFrom, confTags, numbered, List.mem_flatMap, List.mem_map, Prod.exists] at h
  obtain ⟨c, i, hci, j, _, rfl⟩ := h
  exact ⟨List.le_snd_of_mem_zipIdx hci, List.snd_lt_add_of_mem_zipIdx hci⟩

theorem length_pushPoints (srvs : List Srv) :
    (pushPoints md5Hash srvs).length = (srvs.map npoints).sum := by
  have hmap : srvs.map npoints = srvs.zipIdx.map fun x => npoints x.1 := by
    rw [← Function.comp_def npoints Prod.fst, ← List.map_map, List.zipIdx_map_fst]
  simp only [pushPoints, srvPoints, List.length_flatMap, List.length_map, List.length_range, hmap]

/-- A ring over the servers that has points. -/
structure RingOver (srvs : List Srv) (points : List Point) : Prop where
  sorted : points.Pairwise (·.hash ≤ ·.hash)
  nonempty : points ≠ []
  fits : points.length < maxPoints
  inRange : ∀ p ∈ points, p.srv < srvs.length

theorem RingOver.length_lt (h : RingOver srvs points) : points.length < 2 ^ 63 :=
  h.fits.trans (by decide)

theorem mem_pushPoints_srv {srvs : List Srv} {p : Point} (h : p ∈ pushPoints md5Hash srvs) :
    p.srv < srvs.length := by
  simp only [pushPoints, srvPoints, List.mem_flatMap, List.mem_map, Prod.exists] at h
  obtain ⟨s, i, hsi, j, _, rfl⟩ := h
  exact List.snd_lt_of_mem_zipIdx hsi

/-- A point has the hash of one of the keys that are written for the servers. -/
theorem hash_of_mem_ring {srvs : List Srv} {ring : List Point} {p : Point}
    (h : upstreamInitHashRing md5Hash srvs = some ring) (hp : p ∈ ring) :
    ∃ s j, p.hash = md5Hash (hashKey s j) := by
  unfold upstreamInitHashRing at h
  split at h
  · cases h
    have hperm : (bubbleSort Point.hash (pushPoints md5Hash srvs)).Perm _ := bubbleSort_perm _
    have hmem := hperm.mem_iff.mp hp
    simp only [pushPoints, srvPoints, List.mem_flatMap, List.mem_map, Prod.exists] at hmem
    obtain ⟨s, i, -, j, -, rfl⟩ := hmem
    exact ⟨s, j, rfl⟩
  · cases h

/-- `uct_upstream_init_hash_ring` builds such rings. -/
theorem ringOver_init {srvs : List Srv} {ring : List Point}
    (h : upstreamInitHashRing md5Hash srvs = some ring) (hne : ring ≠ []) : RingOver srvs ring := by
  unfold upstreamInitHashRing at h
  split at h
  · next hfits =>
      cases h
      have hperm : (bubbleSort Point.hash (pushPoints md5Hash srvs)).Perm _ := bubbleSort_perm _
      refine ⟨bubbleSort_sorted _, hne, ?_, fun p hp => mem_pushPoints_srv (hperm.mem_iff.mp hp)⟩
      rw [hperm.length_eq, length_pushPoints]
      exact hfits
  · cases h

theorem pushPoints_confParse (mem : Nat → Srv) (cs : List Conf) :
    pushPoints md5Hash (confParse mem cs) = (tagsFrom md5Hash 0 cs).map Prod.fst := by
  suffices h : ∀ k (mem : Nat → Srv), ((confParse mem cs).zipIdx k).flatMap
      (fun x => srvPoints md5Hash x.1 x.2) = (tagsFrom md5Hash k cs).map Prod.fst from h 0 mem
  induction cs with
  | nil => exact fun _ _ => rfl
  | cons c cs ih =>
      intro k mem
      have := ih (k + 1) fun i => mem (i + 1)
      simp only [confParse] at this
      simp only [confParse, List.mapIdx_cons, List.zipIdx_cons, List.flatMap_cons, this,
        tagsFrom_cons, List.map_append]
      congr 1
      simp only [confTags, numbered, List.map_map]
      rfl

/-! ## Two configurations -/

def shift (p i : Nat) : Nat := if i < p then i else i + 1

theorem tagsFrom_shift {p k : Nat} (h : p ≤ k) (cs : List Conf) :
    (tagsFrom md5Hash k cs).map (fun t => (⟨t.1.hash, shift p t.1.srv⟩, t.2)) =
      tagsFrom md5Hash (k + 1) cs := by
  induction cs generalizing k with
  | nil => rfl
  | cons c cs ih =>
      have hk : shift p k = k + 1 := by
        unfold shift
        rw [if_neg (by omega)]
      rw [tagsFrom_cons, tagsFrom_cons, List.map_append, ih (by omega)]
      congr 1
      simp only [confTags, numbered, List.map_map, Function.comp_def, hk]

/-- Points of the entry at `p` from number `n` on. -/
def fresh (p n : Nat) (t : Point × Nat) : Bool := decide (t.1.srv = p ∧ n ≤ t.2)

theorem filter_fresh_of_ne {p n k : Nat} {cs : List Conf} (h : k + cs.length ≤ p ∨ p < k) :
    (tagsFrom md5Hash k cs).filter (!fresh p n ·) = tagsFrom md5Hash k cs := by
  rw [List.filter_eq_self]
  intro t ht
  obtain ⟨hle, hlt⟩ := tagsFrom_srv ht
  simp only [fresh, Bool.not_eq_true', decide_eq_false_iff_not]
  omega

theorem filter_fresh_append (a b : List Conf) (c : Conf) (n : Nat) :
    (tagsFrom md5Hash 0 (a ++ c :: b)).filter (!fresh a.length n ·) = tagsFrom md5Hash 0 a ++
      ((confTags md5Hash c a.length).filter (!fresh a.length n ·) ++
        tagsFrom md5Hash (a.length + 1) b) := by
  rw [tagsFrom_append, tagsFrom_cons, Nat.zero_add, List.filter_append, List.filter_append,
    filter_fresh_of_ne (Or.inl (by omega)), filter_fresh_of_ne (Or.inr (by omega))]

theorem tagsFrom_insert (a b : List Conf) (c : Conf) :
    (tagsFrom md5Hash 0 (a ++ c :: b)).filter (!fresh a.length 0 ·) =
      (tagsFrom md5Hash 0 (a ++ b)).map fun t => (⟨t.1.hash, shift a.length t.1.srv⟩, t.2) := by
  have hc : (confTags md5Hash c a.length).filter (!fresh a.length 0 ·) = [] := by
    simp [confTags, numbered, fresh]
  have ha : (tagsFrom md5Hash 0 a).map
      (fun t => ((⟨t.1.hash, shift a.length t.1.srv⟩ : Point), t.2)) = tagsFrom md5Hash 0 a := by
    conv_rhs => rw [← List.map_id (tagsFrom md5Hash 0 a)]
    refine List.map_congr_left fun t ht => ?_
    have hlt : t.1.srv < a.length := by simpa using (tagsFrom_srv ht).2
    simp [shift, hlt]
  rw [filter_fresh_append, hc, List.nil_append, tagsFrom_append, List.map_append, ha, Nat.zero_add,
    tagsFrom_shift le_rfl]

theorem filter_fresh_numbered (f : Nat → UInt64) (i : Nat) {n m : Nat} (h : n ≤ m) :
    (numbered f i m).filter (!fresh i n ·) = numbered f i n := by
  obtain ⟨d, rfl⟩ := Nat.exists_eq_add_of_le h
  have hlow : (List.range n).filter (fun j => !decide (n ≤ j)) = List.range n := by
    rw [List.filter_eq_self]
    intro j hj
    simpa using hj
  simp [numbered, fresh, List.range_add, List.filter_map, Function.comp_def, hlow]

theorem tagsFrom_raise (a b : List Conf) (c : Conf) (w : Int32)
    (hw : npoints (confParseUpstream default c) ≤
      npoints (confParseUpstream default { c with weight := w })) :
    (tagsFrom md5Hash 0 (a ++ { c with weight := w } :: b)).filter
        (!fresh a.length (npoints (confParseUpstream default c)) ·) =
      tagsFrom md5Hash 0 (a ++ c :: b) := by
  have hc : (confTags md5Hash { c with weight := w } a.length).filter
      (!fresh a.length (npoints (confParseUpstream default c)) ·) = confTags md5Hash c a.length := by
    have hkey (j : Nat) : hashKey (confParseUpstream default { c with weight := w }) j =
        hashKey (confParseUpstream default c) j := by
      simp only [hashKey, confParseUpstream]
    rw [confTags, filter_fresh_numbered _ _ hw]
    simp only [confTags, hkey]
  rw [filter_fresh_append, hc, tagsFrom_append, tagsFrom_cons, Nat.zero_add]

/-! ## Memory bounds the weights -/

theorem npoints_lt_of_ring {srvs : List Srv} {ring : List Point}
    (h : upstreamInitHashRing md5Hash srvs = some ring) : ∀ s ∈ srvs, npoints s < maxPoints := by
  unfold upstreamInitHashRing at h
  split at h
  · next hsum =>
      intro s hs
      have hle : npoints s ≤ (srvs.map npoints).sum :=
        List.single_le_sum (fun _ _ => Nat.zero_le _) _ (List.mem_map_of_mem hs)
      exact hle.trans_lt hsum
  · cases h

/-- A negative weight asks for more points than there is memory for. -/
theorem weight_nonneg_of_npoints {slot : Srv} {c : Conf}
    (h : npoints (confParseUpstream slot c) < maxPoints) : 0 ≤ c.weight.toInt := by
  have hlow := c.weight.le_toInt
  by_contra hneg
  have hwrap : c.weight.toInt * 160 % 2 ^ 64 = c.weight.toInt * 160 + 2 ^ 64 := by
    rw [← Int.add_emod_right, Int.emod_eq_of_lt (by omega) (by omega)]
  simp only [npoints, confParseUpstream, maxPoints, hwrap] at h
  omega

theorem npoints_mono {slot : Srv} {c : Conf} {w : Int32} (h0 : 0 ≤ c.weight.toInt)
    (hw : c.weight ≤ w) :
    npoints (confParseUpstream slot c) ≤ npoints (confParseUpstream slot { c with weight := w }) := by
  have hle := Int32.le_iff_toInt_le.mp hw
  have hhigh := w.toInt_lt
  have hmod (v : Int) (h0 : 0 ≤ v) (hv : v < 2 ^ 31) : v * 160 % 2 ^ 64 = v * 160 :=
    Int.emod_eq_of_lt (by omega) (by omega)
  simp only [npoints, confParseUpstream]
  rw [hmod _ h0 (by omega), hmod _ (h0.trans hle) hhigh]
  omega

/-! ## Number of points -/

theorem map_confParse {γ : Type} (f : Srv → γ) (g : Conf → γ)
    (h : ∀ slot c, f (confParseUpstream slot c) = g c) (mem : Nat → Srv) (cs : List Conf) :
    (confParse mem cs).map f = cs.map g := by
  apply List.ext_getElem?
  intro i
  simp [confParse, List.getElem?_mapIdx, Function.comp_def, h]

theorem npoints_of_nonneg (slot : Srv) {c : Conf} (h : 0 ≤ c.weight.toInt) :
    (npoints (confParseUpstream slot c) : Int) = 160 * c.weight.toInt := by
  have hlt := c.weight.toInt_lt
  have hmod : c.weight.toInt * 160 % 2 ^ 64 = c.weight.toInt * 160 :=
    Int.emod_eq_of_lt (by omega) (by omega)
  simp only [npoints, confParseUpstream, hmod]
  omega

/-- Number of points of a configuration. -/
def confPoints (cs : List Conf) : Nat := (cs.map fun c => npoints (confParseUpstream default c)).sum

theorem sum_npoints (mem : Nat → Srv) (cs : List Conf) :
    ((confParse mem cs).map npoints).sum = confPoints cs :=
  congrArg List.sum (map_confParse _ _ (fun _ _ => rfl) mem cs)

theorem confPoints_of_nonneg {cs : List Conf} (h : ∀ c ∈ cs, 0 ≤ c.weight.toInt) :
    (confPoints cs : Int) = 160 * (cs.map (·.weight.toInt)).sum := by
  induction cs with
  | nil => rfl
  | cons c cs ih =>
      obtain ⟨hc, h⟩ := List.forall_mem_cons.mp h
      have ih := ih h
      have hpoints := npoints_of_nonneg default hc
      simp only [confPoints, List.map_cons, List.sum_cons, Nat.cast_add] at ih ⊢
      rw [hpoints, ih, Int.mul_add]

/-- The point that owns `hash`, with its number. -/
def owner (md5Hash : List UInt8 → UInt64) (cs : List Conf) (hash : UInt64) :
    Option (Point × Nat) :=
  firstOrHead (hash ≤ ·.1.hash) (bubbleSort (·.1.hash) (tagsFrom md5Hash 0 cs))

theorem upstreamGetHashPoint_ring {mem : Nat → Srv} {cs : List Conf} {ring : List Point}
    (h : upstreamInitHashRing md5Hash (confParse mem cs) = some ring) (hne : ring ≠ []) :
    upstreamGetHashPoint ring hash = (owner md5Hash cs hash).map Prod.fst := by
  unfold upstreamInitHashRing at h
  split at h
  · next hmem =>
      cases h
      have hlen : (bubbleSort Point.hash (pushPoints md5Hash (confParse mem cs))).length <
          2 ^ 63 := by
        rw [(bubbleSort_perm _).length_eq, length_pushPoints]
        exact hmem.trans (by decide)
      rw [upstreamGetHashPoint_eq (bubbleSort_sorted _) hlen hne, pushPoints_confParse,
        bubbleSort_map, firstOrHead_map]
      rfl
  · cases h

end Umicat.Upstream
