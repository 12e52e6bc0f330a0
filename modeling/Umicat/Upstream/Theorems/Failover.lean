import Umicat.Upstream.Lemmas.HashRing

/-!
# Failover on the hash ring

When the owner of a client is down, `uct_upstream_next_valid_point` looks for another server from the
owner's point to the end of the array. It does not go round, and it passes over servers that are up
but have `is_fallback` unset.
-/

namespace Umicat.Upstream

open Umicat.Base

def isUp (srvs : List Srv) (p : Point) : Bool := srvs[p.srv]?.any fun s => !s.isDown

def hasFallback (srvs : List Srv) (p : Point) : Bool := srvs[p.srv]?.any fun s => s.isFallback

/-- The points of the circle in clockwise order, from the owner's point on. -/
def clockwise (points : List Point) (hash : UInt64) : List Point :=
  points.drop (ownerIndex points hash) ++ points.take (ownerIndex points hash)

/-- The server of the first point clockwise whose server is up. -/
def firstUp (srvs : List Srv) (points : List Point) (hash : UInt64) : Option Nat :=
  ((clockwise points hash).find? (isUp srvs)).map (·.srv)

/-- The owner is down and may be replaced. -/
def OwnerDown (srvs : List Srv) (points : List Point) (hash : UInt64) : Prop :=
  ∃ p s, points[ownerIndex points hash]? = some p ∧ srvs[p.srv]? = some s ∧
    s.isDown = true ∧ s.isFallback = true

/-- Between the owner's point and the end of the array some server is up, and the first of them has
`is_fallback` set. -/
def Ahead (srvs : List Srv) (points : List Point) (hash : UInt64) : Prop :=
  ∃ p, (points.drop (ownerIndex points hash)).find? (isUp srvs) = some p ∧ hasFallback srvs p = true

variable {srvs : List Srv} {points : List Point} {hash : UInt64}

theorem any_and_eq (srvs : List Srv) (p : Point) :
    (srvs[p.srv]?.any fun s => !s.isDown && s.isFallback) = (isUp srvs p && hasFallback srvs p) := by
  unfold isUp hasFallback
  cases srvs[p.srv]? <;> rfl

theorem ipHashGet_of_ownerDown (h : RingOver srvs points) (hdown : OwnerDown srvs points hash) :
    upstreamIpHashGet srvs points hash =
      some (((points.drop (ownerIndex points hash)).find? fun p =>
        isUp srvs p && hasFallback srvs p).map (·.srv)) := by
  obtain ⟨p, s, hp, hs, hd, hf⟩ := hdown
  unfold upstreamIpHashGet upstreamNextValidPoint
  rw [upstreamGetHashPoint_owner h.sorted h.length_lt h.nonempty, hp]
  simp only [Option.bind_eq_bind, Option.bind_some, hs, hd, hf, Bool.and_self, ↓reduceIte,
    search_owner h.sorted h.length_lt hp, any_and_eq]

theorem find?_and_of_find? {α : Type} {p q : α → Bool} {l : List α} {x : α}
    (h : l.find? p = some x) (hx : q x = true) : l.find? (fun y => p y && q y) = some x := by
  obtain ⟨hp, as, bs, hsplit, hbefore⟩ := List.find?_eq_some_iff_append.mp h
  refine List.find?_eq_some_iff_append.mpr ⟨by simp [hp, hx], as, bs, hsplit, ?_⟩
  intro a ha
  have hpa := hbefore a ha
  simp only [Bool.not_eq_eq_eq_not, Bool.not_true] at hpa
  simp [hpa]

theorem exists_firstUp (hup : ∃ p ∈ points, isUp srvs p = true) (hash : UInt64) :
    ∃ p, (clockwise points hash).find? (isUp srvs) = some p := by
  obtain ⟨p, hp, hpup⟩ := hup
  rw [← Option.isSome_iff_exists, List.find?_isSome]
  refine ⟨p, ?_, hpup⟩
  rw [clockwise, List.mem_append]
  rw [← List.take_append_drop (ownerIndex points hash) points, List.mem_append] at hp
  exact hp.symm

/-- When the owner is down and some server of the ring is up, the client gets the first server clockwise
that is up if and only if that one is ahead. -/
theorem ipHash_failover_iff (h : RingOver srvs points) (hdown : OwnerDown srvs points hash)
    (hup : ∃ p ∈ points, isUp srvs p = true) :
    (∃ i, firstUp srvs points hash = some i ∧ upstreamIpHashGet srvs points hash = some (some i)) ↔
      Ahead srvs points hash := by
  rw [ipHashGet_of_ownerDown h hdown]
  obtain ⟨q, hq⟩ := exists_firstUp hup hash
  have hfirst : firstUp srvs points hash = some q.srv := by rw [firstUp, hq, Option.map_some]
  rw [hfirst]
  rw [clockwise, List.find?_append] at hq
  constructor
  · rintro ⟨i, hi, hget⟩
    cases hi
    obtain ⟨r, hr, hsrv⟩ := Option.map_eq_some_iff.mp (Option.some.inj hget)
    obtain ⟨hrup, hrf⟩ : isUp srvs r = true ∧ hasFallback srvs r = true := by
      simpa using List.find?_some hr
    cases hahead : (points.drop (ownerIndex points hash)).find? (isUp srvs) with
    | none =>
        have hno := List.find?_eq_none.mp hahead r (List.mem_of_find?_eq_some hr)
        exact absurd hrup hno
    | some p =>
        rw [hahead, Option.some_or] at hq
        cases hq
        refine ⟨q, hahead, ?_⟩
        rw [hasFallback, ← hsrv]
        exact hrf
  · rintro ⟨p, hp, hpf⟩
    rw [hp, Option.some_or] at hq
    cases hq
    rw [find?_and_of_find? hp hpf]
    exact ⟨q.srv, rfl, rfl⟩

/-- The owner is the first of two points and its server is down; the second server is up. -/
theorem ipHash_failover_iff_ahead :
    let s : Srv := { (default : Srv) with isFallback := true }
    upstreamIpHashGet [{ s with isDown := true }, s] [⟨10, 0⟩, ⟨20, 1⟩] 5 = some (some 1) := by
  intro s
  have hring : RingOver [{ s with isDown := true }, s] [⟨10, 0⟩, ⟨20, 1⟩] :=
    ⟨by decide, by decide, by decide, by decide⟩
  have hdown : OwnerDown [{ s with isDown := true }, s] [⟨10, 0⟩, ⟨20, 1⟩] 5 :=
    ⟨⟨10, 0⟩, _, rfl, rfl, rfl, rfl⟩
  obtain ⟨i, hi, hget⟩ := (ipHash_failover_iff hring hdown ⟨⟨20, 1⟩, by decide, by decide⟩).mpr
    ⟨⟨20, 1⟩, by decide, by decide⟩
  cases hi
  exact hget

/-- The owner is the last point. The first point clockwise from it is that of server 1, which is up,
and the client gets no server. The same happens with the points the other way round when server 1 may
not be replaced. -/
theorem ipHash_gives_up :
    let s : Srv := { (default : Srv) with isFallback := true }
    let srvs := [{ s with isDown := true }, s]
    let points : List Point := [⟨10, 1⟩, ⟨20, 0⟩]
    let srvs' := [{ s with isDown := true }, { s with isFallback := false }]
    let points' : List Point := [⟨10, 0⟩, ⟨20, 1⟩]
    (RingOver srvs points ∧ OwnerDown srvs points 15 ∧ firstUp srvs points 15 = some 1 ∧
      upstreamIpHashGet srvs points 15 = some none) ∧
    RingOver srvs' points' ∧ OwnerDown srvs' points' 5 ∧ firstUp srvs' points' 5 = some 1 ∧
      upstreamIpHashGet srvs' points' 5 = some none := by
  intro s srvs points srvs' points'
  refine ⟨⟨⟨by decide, by decide, by decide, by decide⟩, ⟨⟨20, 0⟩, _, rfl, rfl, rfl, rfl⟩, ?_, ?_⟩,
    ⟨by decide, by decide, by decide, by decide⟩, ⟨⟨10, 0⟩, _, rfl, rfl, rfl, rfl⟩, ?_, ?_⟩
  all_goals decide

end Umicat.Upstream
