import Umicat.Base.Region
import Umicat.Memory.Pool

/-!
# The layout of a pool

The blocks of a pool are zones behind their headers, and the large blocks lie beside them. Every
operation of the pool keeps this, as long as what the library returns is apart from what it has
given out and not got back.
-/

namespace Umicat.Memory

open Umicat.Base

/-! ## Blocks as zones -/

/-- The first block holds the whole pool header, the others only the part of it for the block. -/
def headerSize : Nat → Nat
  | 0 => sizeofPool
  | _ + 1 => sizeofPoolData

def Block.zone (header : Nat) (b : Block) : Zone := ⟨b.base, b.base + header, b.last, b.stop⟩

def Pool.zones (pool : Pool) : List Zone := pool.blocks.mapIdx fun i b => b.zone (headerSize i)

def Pool.records (pool : Pool) : List Region := pool.large.map fun l => ⟨l.record, sizeofPoolLarge⟩

variable {pool : Pool} {size : Nat} {align : Bool} {h : Heap}

theorem mapIdx_zone_eq {blocks : List Block}
    (heq : ∀ n, blocks.map (Block.zone n) = pool.blocks.map (Block.zone n)) :
    blocks.mapIdx (fun i b => b.zone (headerSize i)) = pool.zones := by
  apply List.ext_getElem?
  intro i
  have hi := congrArg (·[i]?) (heq (headerSize i))
  simpa [Pool.zones] using hi

theorem countFailed_zone (n : Nat) (bs : List Block) (i current : Nat) :
    (countFailed bs i current).1.map (Block.zone n) = bs.map (Block.zone n) := by
  fun_induction countFailed bs i current with
  | case1 b b' bs i current r ih => exact congrArg (b.zone n :: ·) ih
  | case2 => rfl

theorem Block.room_eq {b : Block} (hnext : b.next align ≤ b.stop) (hstop : b.stop < b.next align + 2 ^ 64) :
    b.room align = b.stop - b.next align := by
  unfold Block.room
  omega

theorem le_alignPtr (p : Nat) : p ≤ alignPtr p := by
  unfold alignPtr
  omega

theorem dvd_alignPtr (p : Nat) : 8 ∣ alignPtr p := Nat.dvd_mul_left _ _

theorem alignPtr_le {p q : Nat} (hq : 8 ∣ q) (h : p ≤ q) : alignPtr p ≤ q := by
  unfold alignPtr
  omega

theorem Block.last_le_next (align : Bool) (b : Block) : b.last ≤ b.next align := by
  cases align with
  | false => exact le_rfl
  | true => exact le_alignPtr b.last

/-! ## Small allocations -/

/-- The blocks of a pool hold the items, and its large blocks lie beside them. -/
structure Pool.Laid (pool : Pool) (items large : List Region) : Prop where
  nonempty : pool.blocks ≠ []
  block : ∀ b ∈ pool.blocks, 16 ∣ b.base ∧ b.stop = b.base + defaultPoolSize
  max_le : pool.max ≤ defaultPoolSize - sizeofPool
  layout : Layout pool.zones items large

variable {items large : List Region}

theorem Pool.Laid.psize (hl : pool.Laid items large) : pool.psize = defaultPoolSize := by
  unfold Pool.psize
  split
  · next b bs hb =>
      have hstop := (hl.block b (hb ▸ List.mem_cons_self)).2
      omega
  · next hb => exact absurd hb hl.nonempty

/-- The regions that the library has given out. -/
def Pool.heap (pool : Pool) (large : List Region) : List Region :=
  pool.zones.map Zone.region ++ large

theorem zones_getElem? {i : Nat} {b : Block} (hb : pool.blocks[i]? = some b) :
    pool.zones[i]? = some (b.zone (headerSize i)) := by
  rw [Pool.zones, List.getElem?_mapIdx, hb]
  rfl

/-- An allocation from block `i`. -/
theorem Pool.Laid.fill (hl : pool.Laid items large) {i : Nat} {b : Block}
    (hb : pool.blocks[i]? = some b) (hroom : size ≤ b.room align) :
    Pool.Laid { pool with blocks := pool.blocks.modify i fun b => { b with last := b.next align + size } }
      (⟨b.next align, size⟩ :: items) large := by
  obtain ⟨hbase, hstop⟩ := hl.block b (List.mem_of_getElem? hb)
  have hzone := zones_getElem? hb
  have hordered := hl.layout.ordered _ (List.mem_of_getElem? hzone)
  have hlast : b.last ≤ b.stop := hordered.last_le
  have hlo : b.base ≤ b.last := hordered.base_le.trans hordered.start_le
  have hnext : b.next align ≤ b.stop := by
    cases align with
    | false => exact hlast
    | true =>
        refine alignPtr_le ?_ hlast
        unfold defaultPoolSize at hstop
        omega
  have hge := b.last_le_next align
  have hfits : b.next align + size ≤ b.stop := by
    rw [Block.room_eq hnext (by unfold defaultPoolSize at hstop; omega)] at hroom
    omega
  have hfill := hl.layout.fill (r := ⟨b.next align, size⟩) hzone hge hfits
  refine ⟨?_, ?_, hl.max_le, ?_⟩
  · intro hnil
    exact hl.nonempty (List.length_eq_zero_iff.mp (by simpa using congrArg List.length hnil))
  · exact forall_mem_modify hl.block fun _ _ h => h
  · convert hfill using 1
    apply List.ext_getElem?
    intro j
    simp only [Pool.zones, List.getElem?_mapIdx, List.getElem?_modify]
    by_cases hij : i = j
    · subst hij
      simp [hb, Block.zone, Zone.fill]
    · simp [hij]

/-- What `posix_memalign` returns for a block is new. -/
def Pool.NewBlock (pool : Pool) (large : List Region) (h : Heap) : Prop :=
  ∀ base ∈ h.memalign, 16 ∣ base ∧ ∀ q ∈ pool.heap large, Region.Apart ⟨base, pool.psize⟩ q

/-- A new block comes behind the others, so that its header is that of a later block. -/
theorem zones_concat {blocks : List Block} (hne : pool.blocks ≠ [])
    (heq : ∀ n, blocks.map (Block.zone n) = pool.blocks.map (Block.zone n)) (b : Block) :
    (blocks ++ [b]).mapIdx (fun i b => b.zone (headerSize i)) =
      pool.zones ++ [b.zone sizeofPoolData] := by
  have hlen : blocks.length = pool.blocks.length := by
    simpa using congrArg List.length (heq 0)
  have hheader : headerSize blocks.length = sizeofPoolData := by
    rw [hlen]
    cases hb : pool.blocks with
    | nil => exact absurd hb hne
    | cons b bs => rfl
  simp [List.mapIdx_append, mapIdx_zone_eq heq, hheader]

theorem Pool.Laid.block_of_map (hl : pool.Laid items large) {blocks : List Block}
    (heq : ∀ n, blocks.map (Block.zone n) = pool.blocks.map (Block.zone n)) {b : Block}
    (hb : b ∈ blocks) : 16 ∣ b.base ∧ b.stop = b.base + defaultPoolSize := by
  obtain ⟨b', hb', hzone⟩ := List.mem_map.mp (heq 0 ▸ List.mem_map_of_mem hb)
  have hblock := hl.block b' hb'
  simp only [Block.zone, Zone.mk.injEq] at hzone
  rwa [hzone.1, hzone.2.2.2] at hblock

/-- An allocation from a new block. -/
theorem Pool.Laid.block_new (hl : pool.Laid items large) {base : Nat} (hbase : 16 ∣ base)
    (hnew : ∀ q ∈ pool.heap large, Region.Apart ⟨base, pool.psize⟩ q)
    (hsize : size ≤ defaultPoolSize - sizeofPool) {blocks : List Block} {current : Nat}
    (heq : ∀ n, blocks.map (Block.zone n) = pool.blocks.map (Block.zone n)) :
    Pool.Laid { pool with
        blocks := blocks ++
          [⟨base, alignPtr (base + sizeofPoolData) + size, base + pool.psize, 0⟩]
        current := current }
      (⟨alignPtr (base + sizeofPoolData), size⟩ :: items) large := by
  have halign : alignPtr (base + sizeofPoolData) = base + sizeofPoolData := by
    unfold alignPtr sizeofPoolData
    omega
  rw [hl.psize] at hnew ⊢
  rw [halign]
  refine ⟨by simp, ?_, hl.max_le, ?_⟩
  · intro b hb
    rcases List.mem_append.mp hb with hb | hb
    · exact hl.block_of_map heq hb
    · rw [List.mem_singleton.mp hb]
      exact ⟨hbase, rfl⟩
  · rw [Pool.zones, zones_concat hl.nonempty heq]
    refine hl.layout.addZone ⟨Nat.le_add_right _ _, Nat.le_add_right _ _, ?_⟩ ⟨le_rfl, le_rfl⟩ ?_
    · unfold defaultPoolSize sizeofPool at hsize
      simp only [Block.zone, sizeofPoolData, defaultPoolSize]
      omega
    · intro q hq
      simpa [Zone.region, Block.zone] using hnew q hq

/-- A small allocation that succeeds is one more item; one that fails leaves the pool as it is. -/
theorem Pool.Laid.pallocSmall (hl : pool.Laid items large) (hnew : pool.NewBlock large h)
    (align : Bool) (hsize : size ≤ defaultPoolSize - sizeofPool) :
    pallocSmall pool size align h = (none, pool) ∨
      ∃ m pool', pallocSmall pool size align h = (some m, pool') ∧ pool'.large = pool.large ∧
        pool'.Laid (⟨m, size⟩ :: items) large ∧ (align = true → 8 ∣ m) := by
  unfold Memory.pallocSmall
  split
  · next k hk =>
      obtain ⟨hlt, hroom, -⟩ := List.findIdx?_eq_some_iff_getElem.mp hk
      rw [List.length_drop] at hlt
      rw [List.getElem_drop] at hroom
      have hb : pool.blocks[pool.current + k]? = some pool.blocks[pool.current + k] :=
        List.getElem?_eq_getElem _
      simp only [hb, Option.map_some]
      refine Or.inr ⟨_, _, rfl, rfl, hl.fill hb (of_decide_eq_true hroom), ?_⟩
      intro halign
      rw [halign]
      exact dvd_alignPtr _
  · unfold pallocBlock
    split
    · exact Or.inl rfl
    · next base hbase =>
        obtain ⟨haligned, hfresh⟩ := hnew base hbase
        refine Or.inr ⟨_, _, rfl, rfl, hl.block_new haligned hfresh hsize ?_, fun _ => dvd_alignPtr _⟩
        intro n
        rw [List.map_append, countFailed_zone, ← List.map_append, List.take_append_drop]

/-! ## Large allocations -/

theorem Pool.Laid.perm {items' : List Region} (hl : pool.Laid items large)
    (hp : items'.Perm items) : pool.Laid items' large :=
  ⟨hl.nonempty, hl.block, hl.max_le, hl.layout.perm hp⟩

theorem Pool.Laid.sublist {large' : List Region} (hl : pool.Laid items large)
    (hs : large'.Sublist large) : pool.Laid items large' :=
  ⟨hl.nonempty, hl.block, hl.max_le, hl.layout.sublist hs⟩

theorem Pool.Laid.withLarge (hl : pool.Laid items large) (ls : List Large) :
    Pool.Laid { pool with large := ls } items large :=
  ⟨hl.nonempty, hl.block, hl.max_le, hl.layout⟩

theorem records_modify (ls : List Large) (i : Nat) (p : Option Nat) :
    (ls.modify i fun l => { l with alloc := p }).map (fun l => (⟨l.record, sizeofPoolLarge⟩ : Region)) =
      ls.map fun l => ⟨l.record, sizeofPoolLarge⟩ := by
  apply map_modify_of_eq
  intro l
  rfl

section Large

variable {small : List Region} {p : Nat}

/-- A large block with a new record. -/
theorem Pool.Laid.pmemalign (hl : pool.Laid (small ++ pool.records) large)
    (hp : ∀ q ∈ pool.heap large, Region.Apart ⟨p, size⟩ q)
    (hnew : pool.NewBlock (⟨p, size⟩ :: large) h) :
    pmemalign pool (some p) h = (none, pool) ∨
      ∃ pool', pmemalign pool (some p) h = (some p, pool') ∧
        pool'.Laid (small ++ pool'.records) (⟨p, size⟩ :: large) := by
  have hother : pool.Laid (small ++ pool.records) (⟨p, size⟩ :: large) :=
    ⟨hl.nonempty, hl.block, hl.max_le, hl.layout.addOther hp⟩
  unfold Memory.pmemalign
  obtain hnone | ⟨record, pool', hsome, hlarge, hlaid, -⟩ :=
    hother.pallocSmall hnew true (by decide : sizeofPoolLarge ≤ defaultPoolSize - sizeofPool)
  · exact Or.inl (by rw [hnone])
  · refine Or.inr ⟨{ pool' with large := ⟨record, some p⟩ :: pool'.large }, by rw [hsome], ?_⟩
    have hrecords : Pool.records { pool' with large := ⟨record, some p⟩ :: pool'.large } =
        ⟨record, sizeofPoolLarge⟩ :: pool.records := by
      simp [Pool.records, hlarge]
    rw [hrecords]
    exact (hlaid.perm List.perm_middle).withLarge _

theorem Pool.Laid.pallocLarge (hl : pool.Laid (small ++ pool.records) large)
    (hmalloc : ∀ p ∈ h.malloc, (∀ q ∈ pool.heap large, Region.Apart ⟨p, size⟩ q) ∧
      pool.NewBlock (⟨p, size⟩ :: large) h) :
    pallocLarge pool h = (none, pool) ∨
      ∃ p pool', h.malloc = some p ∧ pallocLarge pool h = (some p, pool') ∧
        pool'.Laid (small ++ pool'.records) (⟨p, size⟩ :: large) := by
  unfold Memory.pallocLarge
  split
  · exact Or.inl rfl
  · next p hp =>
      obtain ⟨hnew, hblock⟩ := hmalloc p hp
      split
      · next i hi =>
          refine Or.inr ⟨p, _, hp, rfl, ?_⟩
          have hrecords : Pool.records
              { pool with large := pool.large.modify i fun l => { l with alloc := some p } } =
              pool.records := records_modify pool.large i (some p)
          rw [hrecords]
          exact Pool.Laid.withLarge
            ⟨hl.nonempty, hl.block, hl.max_le, hl.layout.addOther hnew⟩ _
      · obtain hnone | ⟨pool', hsome, hlaid⟩ := hl.pmemalign hnew hblock
        · exact Or.inl hnone
        · exact Or.inr ⟨p, pool', hp, hsome, hlaid⟩

theorem Pool.Laid.pfree (hl : pool.Laid (small ++ pool.records) large) (p : Option Nat) :
    (pfree pool p).2.Laid (small ++ (pfree pool p).2.records) large := by
  unfold Memory.pfree
  split
  · next i hi =>
      have hrecords : Pool.records
          { pool with large := pool.large.modify i fun l => { l with alloc := none } } =
          pool.records := records_modify pool.large i none
      simp only [hrecords]
      exact hl.withLarge _
  · exact hl

end Large

end Umicat.Memory
