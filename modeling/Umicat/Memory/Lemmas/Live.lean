import Umicat.Memory.Array
import Umicat.Memory.Theorems.Disjoint

/-!
# Live allocations

A list of allocations that a pool keeps apart, whether they lie in its blocks or beside them. The
lemmas here say what an allocation, and what moving the end of the last allocation, does to the list.
-/

namespace Umicat.Memory

open Umicat.Base

variable {pool : Pool} {live live' : List Region} {q : Request} {r : Region}

/-! ## Blocks behind a call -/

theorem countFailed_stop (bs : List Block) (i current : Nat) :
    (countFailed bs i current).1.map Block.stop = bs.map Block.stop := by
  have hzone := congrArg (List.map Zone.stop) (countFailed_zone 0 bs i current)
  rw [List.map_map, List.map_map] at hzone
  exact hzone

/-- A call adds at most the block that the library gives out. -/
theorem pallocSmall_stop (pool : Pool) (size : Nat) (align : Bool) (h : Heap) :
    ∀ b ∈ (pallocSmall pool size align h).2.blocks,
      b.stop ∈ pool.blocks.map Block.stop ∨ ∃ base ∈ h.memalign, b.stop = base + pool.psize := by
  intro b hb
  unfold pallocSmall at hb
  split at hb
  · left
    rw [← map_modify_of_eq (f := fun b : Block => { b with last := b.next align + size })
      (fun _ => rfl)]
    exact List.mem_map_of_mem hb
  · unfold pallocBlock at hb
    split at hb
    · exact Or.inl (List.mem_map_of_mem hb)
    · next base hbase =>
        rcases List.mem_append.mp hb with hb | hb
        · left
          have hstop := List.mem_map_of_mem (f := Block.stop) hb
          rwa [List.map_append, countFailed_stop, ← List.map_append, List.take_append_drop] at hstop
        · rw [List.mem_singleton.mp hb]
          exact Or.inr ⟨base, hbase, rfl⟩

/-- A large block takes room in the blocks of the pool for its record at most. -/
theorem pmemalign_blocks (pool : Pool) (p : Option Nat) (h : Heap) :
    (pmemalign pool p h).2.blocks = pool.blocks ∨
      (pmemalign pool p h).2.blocks = (pallocSmall pool sizeofPoolLarge true h).2.blocks := by
  unfold pmemalign
  split
  · exact Or.inl rfl
  · right
    split
    · next heq => rw [heq]
    · next heq => rw [heq]

theorem pallocLarge_blocks (pool : Pool) (h : Heap) :
    (pallocLarge pool h).2.blocks = pool.blocks ∨
      (pallocLarge pool h).2.blocks = (pallocSmall pool sizeofPoolLarge true h).2.blocks := by
  unfold pallocLarge
  split
  · exact Or.inl rfl
  · next p hp =>
      split
      · exact Or.inl rfl
      · exact (pmemalign_blocks pool (some p) h).imp id id

theorem Request.call_blocks (pool : Pool) (q : Request) :
    (q.call pool).2.blocks = pool.blocks ∨ ∃ size align,
      (q.call pool).2.blocks = (pallocSmall pool size align q.heap).2.blocks := by
  have halloc (size : Nat) (align : Bool) (h : Heap) :
      (if size ≤ pool.max then pallocSmall pool size align h else pallocLarge pool h).2.blocks =
        pool.blocks ∨ ∃ size' align',
      (if size ≤ pool.max then pallocSmall pool size align h else pallocLarge pool h).2.blocks =
        (pallocSmall pool size' align' h).2.blocks := by
    split
    · exact Or.inr ⟨size, align, rfl⟩
    · exact (pallocLarge_blocks pool h).imp id fun heq => ⟨_, _, heq⟩
  cases q with
  | palloc size h => exact halloc size true h
  | pnalloc size h => exact halloc size false h
  | pcalloc size h => exact halloc size true h
  | pmemalign size p h => exact (pmemalign_blocks pool p h).imp id fun heq => ⟨_, _, heq⟩

/-! ## The list of live allocations -/

/-- What the library returns is aligned to 16 bytes, lies in the lower half of the address space, and
is apart from the blocks of the pool and from what is live. -/
def Pool.Fresh (pool : Pool) (live : List Region) (q : Request) : Prop :=
  (∀ r ∈ q.given pool.psize, 16 ∣ r.addr ∧ r.addr + r.size < 2 ^ 63 ∧
    ∀ r' ∈ pool.heap live, r.Apart r') ∧ (q.given pool.psize).Pairwise Region.Apart

instance Pool.instDecidableFresh (pool : Pool) (live : List Region) (q : Request) :
    Decidable (pool.Fresh live q) :=
  inferInstanceAs (Decidable (_ ∧ _))

/-- The live allocations are results in the blocks and large blocks, all in the lower half of the
address space. -/
def Pool.Live (pool : Pool) (live : List Region) : Prop :=
  ∃ small large, Arena.Sound ⟨pool, small, large⟩ ∧ (∀ b ∈ pool.blocks, b.stop < 2 ^ 63) ∧
    (∀ r ∈ large, r.addr + r.size < 2 ^ 63) ∧ live.Perm (small ++ large)

theorem Pool.Live.perm (hl : pool.Live live) (hp : live'.Perm live) : pool.Live live' := by
  obtain ⟨small, large, hs, hstop, hlow, hlive⟩ := hl
  exact ⟨small, large, hs, hstop, hlow, hp.trans hlive⟩

theorem Pool.Live.pairwise (hl : pool.Live live) :
    (live ++ pool.headers ++ pool.records).Pairwise Region.Apart := by
  obtain ⟨small, large, hs, -, -, hlive⟩ := hl
  exact ((hlive.append_right _).append_right _).symm.pairwise hs.separate.apart Region.Apart.symm

theorem Pool.Live.low (hl : pool.Live live) (hr : r ∈ live) : r.addr + r.size < 2 ^ 63 := by
  obtain ⟨small, large, hs, hstop, hlow, hlive⟩ := hl
  rcases List.mem_append.mp (hlive.mem_iff.mp hr) with hr | hr
  · obtain ⟨i, b, hb, -, hle⟩ := hs.separate.inside r hr
    exact hle.trans_lt (hstop b (List.mem_of_getElem? hb))
  · exact hlow r hr

/-- A live allocation may be forgotten. -/
theorem Pool.Live.tail (hl : pool.Live (r :: live)) : pool.Live live := by
  obtain ⟨small, large, hs, hstop, hlow, hlive⟩ := hl
  have hlaid : pool.Laid (small ++ pool.records) large := hs
  rcases List.mem_append.mp (hlive.mem_iff.mp List.mem_cons_self) with hr | hr
  · have hperm := List.perm_cons_erase hr
    have hcons : pool.Laid (r :: (small.erase r ++ pool.records)) large :=
      hlaid.perm (hperm.symm.append_right _)
    refine ⟨small.erase r, large, ?_, hstop, hlow, ?_⟩
    · exact ⟨hlaid.nonempty, hlaid.block, hlaid.max_le, hcons.layout.tail⟩
    · exact (hlive.trans (hperm.append_right large)).cons_inv
  · have hperm := List.perm_cons_erase hr
    refine ⟨small, large.erase r, hlaid.sublist List.erase_sublist, hstop, ?_, ?_⟩
    · exact fun r' hr' => hlow r' (List.mem_of_mem_erase hr')
    · exact (hlive.trans ((hperm.append_left small).trans List.perm_middle)).cons_inv

theorem Pool.Fresh.freshFor {small large : List Region} (hf : pool.Fresh live q)
    (hs : Arena.Sound ⟨pool, small, large⟩) (hlive : live.Perm (small ++ large)) :
    Arena.FreshFor ⟨pool, small, large⟩ q := by
  refine ⟨fun r hr => (hf.1 r hr).1, List.pairwise_append.mpr ⟨hf.2, hs.layout.beside, ?_⟩⟩
  intro r hr r' hr'
  refine (hf.1 r hr).2.2 r' ?_
  rcases List.mem_append.mp hr' with hr' | hr'
  · exact List.mem_append_left _ hr'
  · exact List.mem_append_right _ (hlive.mem_iff.mpr (List.mem_append_right _ hr'))

theorem Pool.Fresh.stop_lt (hf : pool.Fresh live q) (hstop : ∀ b ∈ pool.blocks, b.stop < 2 ^ 63) :
    ∀ b ∈ (q.call pool).2.blocks, b.stop < 2 ^ 63 := by
  intro b hb
  rcases q.call_blocks pool with heq | ⟨size, align, heq⟩
  · exact hstop b (heq ▸ hb)
  · rcases pallocSmall_stop pool size align q.heap b (heq ▸ hb) with hold | ⟨base, hbase, heq⟩
    · obtain ⟨b', hb', hstop'⟩ := List.mem_map.mp hold
      exact hstop' ▸ hstop b' hb'
    · rw [heq]
      have hgiven : (⟨base, pool.psize⟩ : Region) ∈ q.given pool.psize := by
        simp [Request.given, Option.mem_def.mp hbase]
      exact (hf.1 _ hgiven).2.1

/-- The result of an allocation is live; an allocation that fails leaves the pool as it is. -/
theorem Pool.Live.call (hl : pool.Live live) (hf : pool.Fresh live q) :
    q.call pool = (none, pool) ∨
      ∃ m pool', q.call pool = (some m, pool') ∧ pool'.Live (⟨m, q.size⟩ :: live) := by
  obtain ⟨small, large, hs, hstop, hlow, hlive⟩ := hl
  have hc := hs.calls (hf.freshFor hs hlive)
  have hstop := hf.stop_lt hstop
  have hcall : Request.call (Arena.mk pool small large).pool q = q.call pool := rfl
  rw [hcall] at hc
  generalize q.call pool = res at hc hstop
  cases hc with
  | fails => exact Or.inl rfl
  | small _ _ hlaid =>
      exact Or.inr ⟨_, _, rfl, ⟨_, q.size⟩ :: small, large, hlaid, hstop, hlow, hlive.cons _⟩
  | @large m pool' _ _ hanswer hlaid =>
      refine Or.inr ⟨m, pool', rfl, small, ⟨m, q.size⟩ :: large, hlaid, hstop, ?_, ?_⟩
      · intro r hr
        rcases List.mem_cons.mp hr with rfl | hr
        · have hgiven : (⟨m, q.size⟩ : Region) ∈ q.given pool.psize := by
            simp [Request.given, hanswer]
          exact (hf.1 _ hgiven).2.1
        · exact hlow r hr
      · exact (hlive.cons _).trans List.perm_middle.symm

/-! ## Growing the last allocation of the first block -/

theorem Pool.Laid.d_mem {items large : List Region} (hl : pool.Laid items large) :
    pool.blocks[0]? = some pool.d := by
  obtain ⟨b, bs, hb⟩ := List.exists_cons_of_ne_nil hl.nonempty
  simp [Pool.d, hb]

theorem Pool.advance_eq {n : Nat} (hd : pool.blocks[0]? = some pool.d)
    (hn : pool.d.last + n < 2 ^ 64) :
    pool.advance n =
      { pool with blocks := pool.blocks.modify 0 fun b => { b with last := b.next false + n } } := by
  cases hb : pool.blocks with
  | nil => simp [hb] at hd
  | cons b bs =>
      have hb' : pool.d = b := by simp [Pool.d, hb]
      rw [hb'] at hn
      simp only [Pool.advance, hb, List.modify_zero_cons, word, Nat.mod_eq_of_lt hn]
      rfl

theorem Pool.Live.d_lt (hl : pool.Live live) :
    pool.d.last ≤ pool.d.stop ∧ pool.d.stop < 2 ^ 63 := by
  obtain ⟨small, large, hs, hstop, -, -⟩ := hl
  have hmem := List.mem_of_getElem? (Pool.Laid.d_mem hs)
  exact ⟨hs.separate.last_le _ hmem, hstop _ hmem⟩

/-- An allocation that ends where the first block is filled up to can take the space behind it. -/
theorem Pool.Live.extend (hl : pool.Live (r :: live)) (hend : r.addr + r.size = pool.d.last)
    (hpos : 0 < r.size) {n : Nat} (hroom : pool.d.last + n ≤ pool.d.stop) :
    (pool.advance n).Live (⟨r.addr, r.size + n⟩ :: live) := by
  obtain ⟨small, large, hs, hstop, hlow, hlive⟩ := hl
  have hlaid : pool.Laid (small ++ pool.records) large := hs
  have hb0 := hlaid.d_mem
  generalize hd : pool.d = b at hb0 hend hroom
  have hz := List.mem_of_getElem? (zones_getElem? hb0)
  have hordered := hlaid.layout.ordered _ hz
  have hbase : (b.zone (headerSize 0)).base < (b.zone (headerSize 0)).last := by
    have hstart := hordered.start_le
    simp only [Block.zone, headerSize, sizeofPool] at hstart ⊢
    omega
  -- the allocation is a result in the first block
  have hsmall : r ∈ small := by
    rcases List.mem_append.mp (hlive.mem_iff.mp List.mem_cons_self) with hr | hr
    · exact hr
    · exact absurd hr (hlaid.layout.not_other_of_end hz hend hpos hbase)
  have hholds := hlaid.layout.holds_of_end (List.mem_append_left _ hsmall) hz hend hpos hbase
  have hperm := List.perm_cons_erase hsmall
  have hfits : n ≤ b.room false := by
    have hbl := (hlaid.block b (List.mem_of_getElem? hb0)).2
    have hlo : b.base ≤ b.last := hbase.le
    have hnext : b.next false = b.last := rfl
    rw [defaultPoolSize] at hbl
    rw [Block.room_eq (by omega) (by omega), hnext]
    omega
  -- the space behind it is a result of its own, and then both are one
  have hfill := (hlaid.perm (hperm.symm.append_right _)).fill hb0 hfits
  have hlow0 := hstop b (List.mem_of_getElem? hb0)
  have hadvance := Pool.advance_eq (hd ▸ hb0) (hd ▸ show b.last + n < 2 ^ 64 by omega)
  rw [← hadvance] at hfill
  have hb0' : (pool.advance n).blocks[0]? = some { b with last := b.last + n } := by
    rw [hadvance, List.getElem?_modify_eq, hb0]
    rfl
  have hmerge := hfill.layout.merge (List.mem_of_getElem? (zones_getElem? hb0')) (r := r)
    ⟨hholds.1, hholds.2.trans (Nat.le_add_right _ _)⟩ ⟨hordered.start_le, le_rfl⟩ hend.symm
  refine ⟨⟨r.addr, r.size + n⟩ :: small.erase r, large, ?_, ?_, hlow, ?_⟩
  · exact ⟨hfill.nonempty, hfill.block, hfill.max_le, hmerge⟩
  · exact forall_mem_modify hstop fun _ _ h => h
  · exact (hlive.trans (hperm.append_right large)).cons_inv.cons _

end Umicat.Memory
