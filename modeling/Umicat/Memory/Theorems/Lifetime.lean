import Umicat.Memory.Lifetime

/-!
# What a pool takes from the library it gives back

Every block is freed once, by the pool itself or at its end, and nothing is read behind its end.
-/

namespace Umicat.Memory

open Umicat.Base

/-! ## The blocks that a pool holds -/

/-- The blocks of the chain and the large blocks. -/
def Pool.held (pool : Pool) : List Nat := pool.blocks.map Block.base ++ pool.largeBlocks

theorem countFailed_base (bs : List Block) (i current : Nat) :
    (countFailed bs i current).1.map Block.base = bs.map Block.base := by
  fun_induction countFailed bs i current with
  | case1 b b' bs i current r ih => exact congrArg (b.base :: ·) ih
  | case2 => rfl

/-- A small allocation takes no block, or one for the end of the chain. -/
theorem pallocSmall_held (pool : Pool) (size : Nat) (align : Bool) (h : Heap) :
    (pallocSmallCalls pool size align h = [] ∧ (pallocSmall pool size align h).2.held = pool.held) ∨
      ∃ base, pallocSmallCalls pool size align h = [.alloc base] ∧
        (pallocSmall pool size align h).2.held.Perm (base :: pool.held) := by
  unfold pallocSmallCalls pallocSmall
  cases (pool.blocks.drop pool.current).findIdx? fun b => size ≤ b.room align with
  | some k =>
      left
      refine ⟨rfl, congrArg (· ++ pool.largeBlocks) ?_⟩
      apply map_modify_of_eq
      intro b
      rfl
  | none =>
      simp only [pallocBlock]
      cases h.memalign with
      | none => exact .inl ⟨rfl, rfl⟩
      | some base =>
          refine .inr ⟨base, rfl, ?_⟩
          have hbases : (pool.blocks.take pool.current).map Block.base ++
              (pool.blocks.drop pool.current).map Block.base = pool.blocks.map Block.base := by
            rw [← List.map_append, List.take_append_drop]
          simp only [Pool.held, Pool.largeBlocks, List.map_append, countFailed_base, hbases,
            List.map_cons, List.map_nil]
          rw [List.append_assoc]
          exact List.perm_middle

/-- The blocks of `l` are held by the caller. -/
theorem pallocSmall_books (l : List Nat) (pool : Pool) (size : Nat) (align : Bool) (h : Heap) :
    Books (l ++ pool.held) (pallocSmallCalls pool size align h)
      (l ++ (pallocSmall pool size align h).2.held) := by
  obtain ⟨hcalls, hheld⟩ | ⟨base, hcalls, hheld⟩ := pallocSmall_held pool size align h
  · rw [hcalls, hheld]
    exact .refl _
  · rw [hcalls]
    refine (Books.alloc _ base).trans (.perm ?_)
    exact List.perm_middle.symm.trans (hheld.symm.append_left l)

/-! ## Large blocks -/

theorem held_withLarge_cons (pool : Pool) (record p : Nat) :
    (Pool.held { pool with large := ⟨record, some p⟩ :: pool.large }).Perm (p :: pool.held) :=
  List.perm_middle

/-- A large block that was just taken gets a record, or it is freed. -/
theorem record_books (pool : Pool) (p : Nat) (h : Heap) :
    Books (p :: pool.held) (recordCalls pool p h) (pmemalign pool (some p) h).2.held := by
  have hsmall := pallocSmall_books [p] pool sizeofPoolLarge true h
  unfold recordCalls pmemalign
  cases hr : pallocSmall pool sizeofPoolLarge true h with
  | mk record pool' =>
      rw [hr] at hsmall
      cases record with
      | some record => exact hsmall.trans (.perm (held_withLarge_cons pool' record p).symm)
      | none => exact hsmall.trans (.free (.refl _))

theorem pmemalign_books (pool : Pool) (p : Option Nat) (h : Heap) :
    Books pool.held (pmemalignCalls pool p h) (pmemalign pool p h).2.held := by
  cases p with
  | none => exact .refl _
  | some p => exact (Books.alloc pool.held p).trans (record_books pool p h)

/-- The blocks of the records when one that has none gets `p`. -/
theorem filterMap_modify_some {ls : List Large} {i : Nat} {l : Large} (hl : ls[i]? = some l)
    (hfree : l.alloc = none) (p : Nat) :
    ((ls.modify i fun l => { l with alloc := some p }).filterMap Large.alloc).Perm
      (p :: ls.filterMap Large.alloc) := by
  induction ls generalizing i with
  | nil => cases hl
  | cons l' ls ih =>
      cases i with
      | zero =>
          obtain rfl : l' = l := by simpa using hl
          simp [hfree]
      | succ i =>
          have := ih (by simpa using hl)
          simp only [List.modify_succ_cons, List.filterMap_cons]
          cases l'.alloc with
          | none => exact this
          | some p' => exact (this.cons p').trans (.swap p p' _)

theorem pallocLarge_books (pool : Pool) (h : Heap) :
    Books pool.held (pallocLargeCalls pool h) (pallocLarge pool h).2.held := by
  unfold pallocLargeCalls pallocLarge
  cases h.malloc with
  | none => exact .refl _
  | some p =>
      cases hi : (pool.large.take 5).findIdx? Large.free with
      | some i =>
          obtain ⟨hlt, hfree, -⟩ := List.findIdx?_eq_some_iff_getElem.mp hi
          rw [List.getElem_take] at hfree
          have hl := List.getElem?_eq_getElem (hlt.trans_le (List.length_take_le' _ _))
          have hmodify := filterMap_modify_some hl (Option.isNone_iff_eq_none.mp hfree) p
          refine (Books.alloc pool.held p).trans (.perm ?_)
          exact List.perm_middle.symm.trans (hmodify.symm.append_left _)
      | none => exact (Books.alloc pool.held p).trans (record_books pool p h)

theorem palloc_books (pool : Pool) (size : Nat) (align : Bool) (h : Heap) :
    Books pool.held (pallocCalls pool size align h)
      (if size ≤ pool.max then pallocSmall pool size align h else pallocLarge pool h).2.held := by
  unfold pallocCalls
  split
  · exact pallocSmall_books [] pool size align h
  · exact pallocLarge_books pool h

theorem Request.books (pool : Pool) (q : Request) :
    Books pool.held (q.calls pool) (q.call pool).2.held := by
  cases q with
  | palloc size h => exact palloc_books pool size true h
  | pnalloc size h => exact palloc_books pool size false h
  | pcalloc size h => exact palloc_books pool size true h
  | pmemalign size p h => exact pmemalign_books pool p h

/-- The blocks of the records when one gives up its block. -/
theorem filterMap_modify_none {ls : List Large} {i : Nat} {l : Large} (hl : ls[i]? = some l) :
    (ls.filterMap Large.alloc).Perm
      (l.alloc.toList ++ (ls.modify i fun l => { l with alloc := none }).filterMap Large.alloc) := by
  induction ls generalizing i with
  | nil => cases hl
  | cons l' ls ih =>
      cases i with
      | zero =>
          obtain rfl : l' = l := by simpa using hl
          cases hp : l'.alloc <;> simp [hp]
      | succ i =>
          have := ih (by simpa using hl)
          simp only [List.modify_succ_cons, List.filterMap_cons]
          cases l'.alloc with
          | none => exact this
          | some p' => exact (this.cons p').trans List.perm_middle.symm

theorem pfree_books (pool : Pool) (p : Option Nat) :
    Books pool.held (pfreeCalls pool p) (pfree pool p).2.held := by
  unfold pfreeCalls pfree
  cases hi : pool.large.findIdx? (·.alloc = p) with
  | none => exact .refl _
  | some i =>
      obtain ⟨hlt, hp, -⟩ := List.findIdx?_eq_some_iff_getElem.mp hi
      have hl : pool.large[i]? = some pool.large[i] := List.getElem?_eq_getElem _
      have hmodify := filterMap_modify_none hl
      rw [of_decide_eq_true hp] at hmodify
      refine .freeAll _ ((hmodify.append_left _).trans ?_)
      simp only [Pool.held, Pool.largeBlocks]
      rw [← List.append_assoc, ← List.append_assoc]
      exact List.perm_append_comm.append_right _

/-! ## Reset and the end -/

theorem resetPool_books (pool : Pool) : Books pool.held (resetCalls pool) (resetPool pool).held := by
  have hbases : (pool.blocks.map Block.reset).map Block.base = pool.blocks.map Block.base := by
    rw [List.map_map]
    rfl
  refine .freeAll _ ?_
  simp only [Pool.held, resetPool, hbases, Pool.largeBlocks, List.filterMap_nil, List.append_nil]
  exact List.perm_append_comm

/-- The chain is freed from its first block on. -/
theorem chain_books (bs : List Block) :
    Books (bs.map Block.base) (bs.flatMap fun b => [.read b.base, .free b.base]) [] := by
  induction bs with
  | nil => exact .refl _
  | cons b bs ih =>
      have hread : Books ((b :: bs).map Block.base) [.read b.base] ((b :: bs).map Block.base) :=
        .read List.mem_cons_self
      exact (hread.trans (.free (.refl _))).trans ih

theorem destroyPool_books (pool : Pool) : Books pool.held (destroyCalls pool) [] := by
  have hlarge : Books pool.held (pool.largeBlocks.map .free) (pool.blocks.map Block.base) :=
    .freeAll _ List.perm_append_comm
  exact hlarge.trans (chain_books pool.blocks)

theorem PoolOp.books (pool : Pool) (o : PoolOp) :
    Books pool.held (o.calls pool) (o.next pool).held := by
  cases o with
  | op o =>
      cases o with
      | request q => exact q.books pool
      | pfree p => exact pfree_books pool p
  | reset => exact resetPool_books pool

theorem Pool.calls_books (pool : Pool) (os : List PoolOp) : Books pool.held (pool.calls os) [] := by
  induction os generalizing pool with
  | nil => exact destroyPool_books pool
  | cons o os ih => exact (o.books pool).trans (ih (o.next pool))

theorem createPool_books {pagesize size : Nat} {h : Heap} {pool : Pool}
    (hpool : createPool pagesize size h = some pool) : Books [] (createCalls h) pool.held := by
  obtain ⟨p, hp, rfl⟩ := Option.map_eq_some_iff.mp hpool
  rw [createCalls, hp]
  exact .alloc [] p

/-- A pool of any size, from its creation through any operations to its end, with a library that gives
out only blocks that are not in use: every block that is freed or read is in use at that time, and none
is left in use. -/
theorem pool_lifetime {pagesize size : Nat} {h : Heap} {pool : Pool} (os : List PoolOp)
    (hpool : createPool pagesize size h = some pool)
    (hsane : Along Entry.next Entry.Sane ∅ (createCalls h ++ pool.calls os)) :
    Along Entry.next Entry.Legal ∅ (createCalls h ++ pool.calls os) ∧
      (createCalls h ++ pool.calls os).foldl Entry.next ∅ = ∅ := by
  have hbooks := (createPool_books hpool).trans (Pool.calls_books pool os)
  obtain ⟨hlegal, hlive, -⟩ := hbooks List.nodup_nil hsane
  exact ⟨hlegal, hlive⟩

/-- Two large blocks, one of them freed and its record used again, a second block of the chain, a reset
and a large block behind it. -/
theorem pool_lifetime_reset :
    let os : List PoolOp := [.op (.request (.palloc 5000 ⟨some 131072, none⟩)),
      .op (.request (.pmemalign 64 (some 139264) ⟨none, none⟩)), .op (.pfree (some 131072)),
      .op (.request (.palloc 6000 ⟨some 131072, none⟩)),
      .op (.request (.palloc 4000 ⟨none, none⟩)), .op (.request (.palloc 4000 ⟨none, none⟩)),
      .op (.request (.palloc 4000 ⟨none, none⟩)), .op (.request (.palloc 4000 ⟨none, none⟩)),
      .op (.request (.palloc 4000 ⟨none, some 262144⟩)), .reset,
      .op (.request (.palloc 7000 ⟨some 139264, none⟩))]
    let pool : Pool := ⟨[⟨65536, 65616, 81920, 0⟩], 4095, 0, []⟩
    let cs := createCalls ⟨none, some 65536⟩ ++ pool.calls os
    createPool 4096 defaultPoolSize ⟨none, some 65536⟩ = some pool ∧ cs.length = 14 ∧
      Along Entry.next Entry.Sane ∅ cs ∧ Along Entry.next Entry.Legal ∅ cs ∧
      cs.foldl Entry.next ∅ = ∅ := by
  intro os pool cs
  have hpool : createPool 4096 defaultPoolSize ⟨none, some 65536⟩ = some pool := by decide
  have hsane : Along Entry.next Entry.Sane ∅ cs := by decide +kernel
  exact ⟨hpool, by decide +kernel, hsane, pool_lifetime os hpool hsane⟩

/-! ## Results across resets -/

/-- A reset takes all results away. -/
def Arena.poolStep (a : Arena) : PoolOp → Arena
  | .op o => a.step o
  | .reset => .start (resetPool a.pool)

def Arena.PoolFresh (a : Arena) : PoolOp → Prop
  | .op o => a.Fresh o
  | .reset => True

instance Arena.instDecidablePoolFresh (a : Arena) : (o : PoolOp) → Decidable (a.PoolFresh o)
  | .op o => inferInstanceAs (Decidable (a.Fresh o))
  | .reset => inferInstanceAs (Decidable True)

/-- What an operation does, and what the pool is behind it. -/
def Arena.PoolGood (a : Arena) (o : PoolOp) : Prop :=
  (∀ q, o = .op (.request q) → a.Placed q) ∧ (a.poolStep o).Separate

theorem reset_zone (n : Nat) (b : Block) :
    b.reset.zone n = { b.zone n with last := b.base + sizeofPool } := rfl

theorem headerSize_le (i : Nat) : headerSize i ≤ sizeofPool := by
  cases i with
  | zero => exact le_rfl
  | succ i => exact (by decide : sizeofPoolData ≤ sizeofPool)

theorem Pool.Laid.reset {pool : Pool} {items large : List Region} (hl : pool.Laid items large) :
    (resetPool pool).Laid [] [] where
  nonempty := by
    intro hnil
    exact hl.nonempty (List.map_eq_nil_iff.mp hnil)
  block := by
    intro b hb
    obtain ⟨b', hb', rfl⟩ := List.mem_map.mp hb
    exact hl.block b' hb'
  max_le := hl.max_le
  layout := by
    have hregions : (resetPool pool).zones.map Zone.region = pool.zones.map Zone.region := by
      apply List.ext_getElem?
      intro i
      simp only [Pool.zones, resetPool, List.getElem?_map, List.getElem?_mapIdx, Option.map_map]
      congr 1
    have hheld : ∀ r ∈ ([] : List Region), ∃ z ∈ (resetPool pool).zones, z.Holds r := by
      intro r hr
      cases hr
    refine ⟨?_, hheld, List.Pairwise.nil, ?_⟩
    · intro z hz
      obtain ⟨i, hi⟩ := List.mem_iff_getElem?.mp hz
      simp only [Pool.zones, resetPool, List.getElem?_mapIdx, List.getElem?_map] at hi
      obtain ⟨b', hb', rfl⟩ := Option.map_eq_some_iff.mp hi
      obtain ⟨b, hb, rfl⟩ := Option.map_eq_some_iff.mp hb'
      have hstop := (hl.block b (List.mem_of_getElem? hb)).2
      refine ⟨Nat.le_add_right _ _, Nat.add_le_add_left (headerSize_le i) b.base, ?_⟩
      rw [reset_zone]
      simp only [Block.zone, hstop]
      exact Nat.add_le_add_left (by decide) b.base
    · rw [hregions, List.append_nil]
      exact (List.pairwise_append.mp hl.layout.beside).1

theorem Arena.Sound.poolStep {a : Arena} {o : PoolOp} (hs : a.Sound) (hf : a.PoolFresh o) :
    (a.poolStep o).Sound := by
  cases o with
  | op o => exact hs.step hf
  | reset => exact Pool.Laid.reset hs

/-- In every sequence of allocations, frees and resets on a new pool of the default size, with a
library that returns new regions aligned to 16 bytes: every result lies in a block behind its header or
is a large block of the size asked for, and the results since the last reset that are not freed, the
headers and the records are pairwise apart. -/
theorem allocations_apart_across_resets {pagesize : Nat} {h : Heap} {pool : Pool}
    (hpool : createPool pagesize defaultPoolSize h = some pool)
    (haligned : ∀ p ∈ h.memalign, 16 ∣ p) {os : List PoolOp}
    (hfresh : Along Arena.poolStep Arena.PoolFresh (Arena.start pool) os) :
    Along Arena.poolStep Arena.PoolGood (Arena.start pool) os := by
  refine hfresh.of_invariant (fun _ _ => Arena.Sound.poolStep) ?_ (sound_start hpool haligned)
  intro a o hs hf
  refine ⟨fun q ho => ?_, (hs.poolStep hf).separate⟩
  subst ho
  exact hs.placed hf

/-- A large block and a second block of the chain, and after a reset a result in each of the two
blocks. -/
theorem allocations_apart_across_resets_two_blocks :
    let os : List PoolOp := [.op (.request (.palloc 5000 ⟨some 131072, none⟩)),
      .op (.request (.palloc 4000 ⟨none, none⟩)), .op (.request (.palloc 4000 ⟨none, none⟩)),
      .op (.request (.palloc 4000 ⟨none, none⟩)), .op (.request (.palloc 4000 ⟨none, none⟩)),
      .op (.request (.palloc 4000 ⟨none, some 262144⟩)), .reset,
      .op (.request (.palloc 4000 ⟨none, none⟩)), .op (.request (.palloc 4000 ⟨none, none⟩)),
      .op (.request (.palloc 4000 ⟨none, none⟩)), .op (.request (.palloc 4000 ⟨none, none⟩)),
      .op (.request (.palloc 4000 ⟨none, none⟩))]
    let pool : Pool := ⟨[⟨65536, 65616, 81920, 0⟩], 4095, 0, []⟩
    createPool 4096 defaultPoolSize ⟨none, some 65536⟩ = some pool ∧
      Along Arena.poolStep Arena.PoolGood (Arena.start pool) os ∧
      (os.foldl Arena.poolStep (Arena.start pool)).small.length = 5 := by
  intro os pool
  have hpool : createPool 4096 defaultPoolSize ⟨none, some 65536⟩ = some pool := by decide
  have hfresh : Along Arena.poolStep Arena.PoolFresh (Arena.start pool) os := by decide +kernel
  exact ⟨hpool, allocations_apart_across_resets hpool (by decide) hfresh, by decide +kernel⟩

end Umicat.Memory
