import Mathlib.Data.List.Basic
import Mathlib.Data.List.Pairwise
import Mathlib.Order.Nat
import Umicat.Base.Modify

/-!
# Regions and zones

A region is a range of addresses. A zone is a region with a header that is filled from below. Items
that are placed above the filled part of a zone never overlap.
-/

namespace Umicat.Base

/-! ## Regions -/

structure Region where
  addr : Nat
  size : Nat
deriving Repr, DecidableEq

def Region.Has (r : Region) (x : Nat) : Prop := r.addr ≤ x ∧ x < r.addr + r.size

/-- No address is in both regions. -/
def Region.Apart (r r' : Region) : Prop := ∀ x, r.Has x → ¬ r'.Has x

variable {r r' q q' : Region}

theorem Region.apart_iff :
    r.Apart r' ↔ r.addr + r.size ≤ r'.addr ∨ r'.addr + r'.size ≤ r.addr ∨ r.size = 0 ∨ r'.size = 0 := by
  constructor
  · intro h
    -- the address where the later one of two regions begins
    by_contra hcon
    rcases Nat.le_total r.addr r'.addr with hle | hle
    · exact h r'.addr ⟨hle, by omega⟩ ⟨Nat.le_refl _, by omega⟩
    · exact h r.addr ⟨Nat.le_refl _, by omega⟩ ⟨hle, by omega⟩
  · rintro h x ⟨hlo, hhi⟩ ⟨hlo', hhi'⟩
    omega

instance Region.instDecidableApart (r r' : Region) : Decidable (r.Apart r') :=
  decidable_of_iff _ Region.apart_iff.symm

theorem Region.Apart.symm (h : r.Apart r') : r'.Apart r := fun x hx' hx => h x hx hx'

theorem Region.apart_of_le (h : r.addr + r.size ≤ r'.addr) : r.Apart r' :=
  Region.apart_iff.mpr (Or.inl h)

def Region.Within (r r' : Region) : Prop :=
  r'.addr ≤ r.addr ∧ r.addr + r.size ≤ r'.addr + r'.size

theorem Region.Within.has {x : Nat} (h : r.Within r') (hx : r.Has x) : r'.Has x :=
  ⟨h.1.trans hx.1, hx.2.trans_le h.2⟩

theorem Region.Apart.mono (h : q.Apart q') (hr : r.Within q) (hr' : r'.Within q') : r.Apart r' :=
  fun x hx hx' => h x (hr.has hx) (hr'.has hx')

theorem Region.Within.refl (r : Region) : r.Within r := ⟨le_rfl, le_rfl⟩

/-! ## Zones -/

/-- A zone from `base` to `stop`: the header ends at `start`, and the filled part at `last`. -/
structure Zone where
  base : Nat
  start : Nat
  last : Nat
  stop : Nat
deriving Repr, DecidableEq

def Zone.region (z : Zone) : Region := ⟨z.base, z.stop - z.base⟩

def Zone.header (z : Zone) : Region := ⟨z.base, z.start - z.base⟩

/-- The filled part of the zone holds `r`. -/
def Zone.Holds (z : Zone) (r : Region) : Prop := z.start ≤ r.addr ∧ r.addr + r.size ≤ z.last

structure Zone.Ordered (z : Zone) : Prop where
  base_le : z.base ≤ z.start
  start_le : z.start ≤ z.last
  last_le : z.last ≤ z.stop

variable {z z' : Zone}

theorem Zone.Ordered.within (h : z.Ordered) (hr : z.Holds r) : r.Within z.region := by
  obtain ⟨hbase, hstart, hlast⟩ := h
  obtain ⟨hlo, hhi⟩ := hr
  simp only [Region.Within, Zone.region]
  omega

theorem Zone.Ordered.header_within (h : z.Ordered) : z.header.Within z.region := by
  obtain ⟨hbase, hstart, hlast⟩ := h
  simp only [Region.Within, Zone.region, Zone.header]
  omega

theorem Zone.Ordered.apart_header (h : z.Ordered) (hr : z.Holds r) : r.Apart z.header := by
  refine (Region.apart_of_le ?_).symm
  have hbase := h.base_le
  have hlo := hr.1
  simp only [Zone.header]
  omega

/-- Fill the zone up to the end of `r`. -/
def Zone.fill (r : Region) (z : Zone) : Zone := { z with last := r.addr + r.size }

theorem Zone.Holds.fill (h : z.Holds q) (hr : z.last ≤ r.addr) : (z.fill r).Holds q := by
  refine ⟨h.1, ?_⟩
  have hhi := h.2
  simp only [Zone.fill]
  omega

theorem Zone.Ordered.fill (h : z.Ordered) (hr : z.last ≤ r.addr) (hstop : r.addr + r.size ≤ z.stop) :
    (z.fill r).Ordered := by
  refine ⟨h.base_le, ?_, hstop⟩
  have hstart := h.start_le
  simp only [Zone.fill]
  omega

theorem Zone.Ordered.holds_fill (h : z.Ordered) (hr : z.last ≤ r.addr) : (z.fill r).Holds r :=
  ⟨h.start_le.trans hr, le_rfl⟩

/-! ## Layouts -/

/-- Items in the filled parts of zones, and other regions beside the zones. -/
structure Layout (zones : List Zone) (items others : List Region) : Prop where
  ordered : ∀ z ∈ zones, z.Ordered
  held : ∀ r ∈ items, ∃ z ∈ zones, z.Holds r
  apart : items.Pairwise Region.Apart
  beside : (zones.map Zone.region ++ others).Pairwise Region.Apart

variable {zones : List Zone} {items items' others others' : List Region}

theorem Layout.zones_apart (h : Layout zones items others) (hz : z ∈ zones) (hz' : z' ∈ zones)
    (hne : z ≠ z') : z.region.Apart z'.region := by
  have : Std.Symm fun z z' : Zone => z.region.Apart z'.region := ⟨fun _ _ h => h.symm⟩
  have hzones := List.pairwise_map.mp (List.pairwise_append.mp h.beside).1
  exact hzones.forall hz hz' hne

theorem Layout.zone_apart_other (h : Layout zones items others) (hz : z ∈ zones) (hq : q ∈ others) :
    z.region.Apart q :=
  (List.pairwise_append.mp h.beside).2.2 _ (List.mem_map_of_mem hz) q hq

theorem Layout.perm (h : Layout zones items others) (hp : items'.Perm items) :
    Layout zones items' others :=
  ⟨h.ordered, fun r hr => h.held r (hp.mem_iff.mp hr), hp.symm.pairwise h.apart Region.Apart.symm,
    h.beside⟩

theorem Layout.sublist (h : Layout zones items others) (hs : others'.Sublist others) :
    Layout zones items others' :=
  ⟨h.ordered, h.held, h.apart, h.beside.sublist ((List.Sublist.refl _).append hs)⟩

/-- All items, headers and other regions are apart. -/
theorem Layout.pairwise (h : Layout zones items others) :
    (items ++ (zones.map Zone.header ++ others)).Pairwise Region.Apart := by
  obtain ⟨hzones, hothers, -⟩ := List.pairwise_append.mp h.beside
  refine List.pairwise_append.mpr ⟨h.apart, List.pairwise_append.mpr ⟨?_, hothers, ?_⟩, ?_⟩
  · refine List.pairwise_map.mpr ((List.pairwise_map.mp hzones).imp_of_mem ?_)
    intro z z' hz hz' hapart
    exact hapart.mono (h.ordered z hz).header_within (h.ordered z' hz').header_within
  · intro r hr q hq
    obtain ⟨z, hz, rfl⟩ := List.mem_map.mp hr
    exact (h.zone_apart_other hz hq).mono (h.ordered z hz).header_within (.refl q)
  · intro r hr q hq
    obtain ⟨z, hz, hholds⟩ := h.held r hr
    have hwithin := (h.ordered z hz).within hholds
    rcases List.mem_append.mp hq with hq | hq
    · obtain ⟨z', hz', rfl⟩ := List.mem_map.mp hq
      by_cases he : z = z'
      · subst he
        exact (h.ordered z hz).apart_header hholds
      · exact (h.zones_apart hz hz' he).mono hwithin (h.ordered z' hz').header_within
    · exact (h.zone_apart_other hz hq).mono hwithin (.refl q)

/-- A region above the filled part of a zone is apart from all items. -/
theorem Layout.apart_above (h : Layout zones items others) (hz : z ∈ zones) (hlast : z.last ≤ r.addr)
    (hstop : r.addr + r.size ≤ z.stop) : ∀ q ∈ items, r.Apart q := by
  intro q hq
  obtain ⟨z', hz', hholds⟩ := h.held q hq
  by_cases he : z = z'
  · subst he
    exact (Region.apart_of_le (hholds.2.trans hlast)).symm
  · have hordered := h.ordered z hz
    have hwithin := (hordered.fill hlast hstop).within (hordered.holds_fill hlast)
    exact (h.zones_apart hz hz' he).mono hwithin ((h.ordered z' hz').within hholds)

/-- Place an item above the filled part of a zone. -/
theorem Layout.fill {i : Nat} (h : Layout zones items others) (hz : zones[i]? = some z)
    (hlast : z.last ≤ r.addr) (hstop : r.addr + r.size ≤ z.stop) :
    Layout (zones.modify i (Zone.fill r)) (r :: items) others := by
  have hmem := List.mem_of_getElem? hz
  have hnew : z.fill r ∈ zones.modify i (Zone.fill r) := by
    apply List.mem_of_getElem? (i := i)
    rw [List.getElem?_modify_eq, hz]
    rfl
  refine ⟨?_, ?_, List.pairwise_cons.mpr ⟨h.apart_above hmem hlast hstop, h.apart⟩, ?_⟩
  · intro z' hz'
    obtain ⟨j, hj⟩ := List.mem_iff_getElem?.mp hz'
    obtain ⟨x, hx, rfl⟩ := getElem?_modify_eq_some hj
    split
    · next hij =>
        subst hij
        cases hz.symm.trans hx
        exact (h.ordered z hmem).fill hlast hstop
    · exact h.ordered x (List.mem_of_getElem? hx)
  · intro q hq
    rcases List.mem_cons.mp hq with rfl | hq
    · exact ⟨_, hnew, (h.ordered z hmem).holds_fill hlast⟩
    · obtain ⟨z', hz', hholds⟩ := h.held q hq
      obtain ⟨j, hj⟩ := List.mem_iff_getElem?.mp hz'
      by_cases hij : i = j
      · subst hij
        cases hz.symm.trans hj
        exact ⟨_, hnew, hholds.fill hlast⟩
      · refine ⟨z', List.mem_of_getElem? (i := j) ?_, hholds⟩
        rw [List.getElem?_modify_ne _ _ hij, hj]
  · have hregion : ∀ z : Zone, (z.fill r).region = z.region := fun _ => rfl
    rw [map_modify_of_eq hregion]
    exact h.beside

/-- Place an item in a new zone. -/
theorem Layout.addZone (h : Layout zones items others) (hz : z.Ordered) (hr : z.Holds r)
    (hnew : ∀ q ∈ zones.map Zone.region ++ others, z.region.Apart q) :
    Layout (zones ++ [z]) (r :: items) others where
  ordered := by
    intro z' hz'
    rcases List.mem_append.mp hz' with hz' | hz'
    · exact h.ordered z' hz'
    · exact List.mem_singleton.mp hz' ▸ hz
  held := by
    intro q hq
    rcases List.mem_cons.mp hq with rfl | hq
    · exact ⟨z, List.mem_append_right _ List.mem_cons_self, hr⟩
    · obtain ⟨z', hz', hholds⟩ := h.held q hq
      exact ⟨z', List.mem_append_left _ hz', hholds⟩
  apart := by
    refine List.pairwise_cons.mpr ⟨fun q hq => ?_, h.apart⟩
    obtain ⟨z', hz', hholds⟩ := h.held q hq
    have hapart := hnew z'.region (List.mem_append_left _ (List.mem_map_of_mem hz'))
    exact hapart.mono (hz.within hr) ((h.ordered z' hz').within hholds)
  beside := by
    have hcons : (z.region :: (zones.map Zone.region ++ others)).Pairwise Region.Apart :=
      List.pairwise_cons.mpr ⟨hnew, h.beside⟩
    rw [List.map_append, List.append_assoc]
    exact List.perm_middle.symm.pairwise hcons Region.Apart.symm

theorem Layout.addOther (h : Layout zones items others)
    (hnew : ∀ q ∈ zones.map Zone.region ++ others, r.Apart q) : Layout zones items (r :: others) where
  ordered := h.ordered
  held := h.held
  apart := h.apart
  beside := List.perm_middle.symm.pairwise (List.pairwise_cons.mpr ⟨hnew, h.beside⟩) Region.Apart.symm

/-! ## Growing the last item -/

/-- An item that ends where the filled part of a zone ends is in that zone. -/
theorem Layout.holds_of_end (h : Layout zones items others) (hr : r ∈ items) (hz : z ∈ zones)
    (hend : r.addr + r.size = z.last) (hpos : 0 < r.size) (hbase : z.base < z.last) : z.Holds r := by
  obtain ⟨z', hz', hholds⟩ := h.held r hr
  by_cases he : z = z'
  · exact he ▸ hholds
  · -- the last address of the item would be in two zones
    have hlast := (h.ordered z hz).last_le
    have hin : z.region.Has (z.last - 1) := by
      simp only [Region.Has, Zone.region]
      omega
    have hin' : r.Has (z.last - 1) := by
      simp only [Region.Has]
      omega
    exact absurd (((h.ordered z' hz').within hholds).has hin') (h.zones_apart hz hz' he _ hin)

/-- Other regions do not end there. -/
theorem Layout.not_other_of_end (h : Layout zones items others) (hz : z ∈ zones)
    (hend : r.addr + r.size = z.last) (hpos : 0 < r.size) (hbase : z.base < z.last) : r ∉ others := by
  intro hr
  have hlast := (h.ordered z hz).last_le
  refine h.zone_apart_other hz hr (z.last - 1) ?_ ?_
  · simp only [Region.Has, Zone.region]
    omega
  · simp only [Region.Has]
    omega

/-- Two items of one zone, the second of which begins where the first ends, are one item. -/
theorem Layout.merge (h : Layout zones (q :: r :: items) others) (hz : z ∈ zones) (hr : z.Holds r)
    (hq : z.Holds q) (hnext : q.addr = r.addr + r.size) :
    Layout zones (⟨r.addr, r.size + q.size⟩ :: items) others where
  ordered := h.ordered
  held := by
    intro r' hr'
    rcases List.mem_cons.mp hr' with rfl | hr'
    · have hhi := hq.2
      exact ⟨z, hz, hr.1, by simp only; omega⟩
    · exact h.held r' (List.mem_cons_of_mem _ (List.mem_cons_of_mem _ hr'))
  apart := by
    obtain ⟨hqs, hrest⟩ := List.pairwise_cons.mp h.apart
    obtain ⟨hrs, hitems⟩ := List.pairwise_cons.mp hrest
    refine List.pairwise_cons.mpr ⟨fun r' hr' x hx => ?_, hitems⟩
    rcases Nat.lt_or_ge x (r.addr + r.size) with hlt | hge
    · exact hrs r' hr' x ⟨hx.1, hlt⟩
    · refine hqs r' (List.mem_cons_of_mem _ hr') x ⟨hnext ▸ hge, ?_⟩
      have hhi := hx.2
      simp only at hhi
      omega
  beside := h.beside

theorem Layout.tail (h : Layout zones (r :: items) others) : Layout zones items others :=
  ⟨h.ordered, fun q hq => h.held q (List.mem_cons_of_mem _ hq), h.apart.of_cons, h.beside⟩

end Umicat.Base
