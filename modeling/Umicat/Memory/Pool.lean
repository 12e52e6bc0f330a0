import Umicat.Base.Word

/-!
# Memory pools

The pool allocator of `uct_palloc.c` over addresses. A pool is a chain of blocks, the first of which
holds the pool header, and a list of records of large blocks. What the C library returns is an input of
each operation: a missing address is NULL.
-/

namespace Umicat.Memory

/-- `sizeof(uct_pool_t)`. -/
def sizeofPool : Nat := 80

/-- `sizeof(uct_pool_data_t)`. -/
def sizeofPoolData : Nat := 32

/-- `sizeof(uct_pool_large_t)`. -/
def sizeofPoolLarge : Nat := 16

/-- `UCT_DEFAULT_POOL_SIZE`. -/
def defaultPoolSize : Nat := 16384

/-- `uct_align_ptr(p, UCT_ALIGNMENT)` with an alignment of 8. -/
def alignPtr (p : Nat) : Nat := (p + 7) / 8 * 8

/-- `uct_pool_data_t` at the address `base`. -/
structure Block where
  base : Nat
  last : Nat
  stop : Nat
  failed : Nat
deriving Repr, DecidableEq

/-- `uct_pool_large_t` at the address `record`. -/
structure Large where
  record : Nat
  alloc : Option Nat
deriving Repr, DecidableEq

/-- `uct_pool_t`. The blocks are in the order of `next`, and `current` is the index of a block. -/
structure Pool where
  blocks : List Block
  max : Nat
  current : Nat
  large : List Large
deriving Repr, DecidableEq

/-- What `malloc` and `posix_memalign` return if they are called. -/
structure Heap where
  malloc : Option Nat
  memalign : Option Nat
deriving Repr, DecidableEq

/-- `uct_create_pool`. The subtraction of the header is unsigned. -/
def createPool (pagesize size : Nat) (h : Heap) : Option Pool :=
  h.memalign.map fun p =>
    let room := (size + 2 ^ 64 - sizeofPool) % 2 ^ 64
    { blocks := [⟨p, p + sizeofPool, p + size, 0⟩]
      max := if room < (pagesize + 2 ^ 64 - 1) % 2 ^ 64 then room
        else (pagesize + 2 ^ 64 - 1) % 2 ^ 64
      current := 0
      large := [] }

/-! ## Small allocations -/

/-- `m` in the search loop of `uct_palloc_small`. -/
def Block.next (align : Bool) (b : Block) : Nat := if align then alignPtr b.last else b.last

/-- `(size_t) (p->d.end - m)`. -/
def Block.room (align : Bool) (b : Block) : Nat := (b.stop + 2 ^ 64 - b.next align) % 2 ^ 64

/-- `psize`, the size of the first block. -/
def Pool.psize (pool : Pool) : Nat :=
  match pool.blocks with
  | b :: _ => b.stop - b.base
  | [] => 0

/-- The loop of `uct_palloc_block` over the blocks from index `i` on: each block but the last one has
failed once more, and one that had failed more than 4 times is passed by from now on. -/
def countFailed : List Block → Nat → Nat → List Block × Nat
  | b :: b' :: bs, i, current =>
      let r := countFailed (b' :: bs) (i + 1) (if b.failed > 4 then i + 1 else current)
      ({ b with failed := b.failed + 1 } :: r.1, r.2)
  | bs, _, current => (bs, current)

/-- `uct_palloc_block`. -/
def pallocBlock (pool : Pool) (size : Nat) (h : Heap) : Option Nat × Pool :=
  match h.memalign with
  | none => (none, pool)
  | some base =>
      let m := alignPtr (base + sizeofPoolData)
      let r := countFailed (pool.blocks.drop pool.current) pool.current pool.current
      (some m, { pool with
        blocks := pool.blocks.take pool.current ++ r.1 ++ [⟨base, m + size, base + pool.psize, 0⟩]
        current := r.2 })

/-- `uct_palloc_small`: the first block from `current` on with enough room, or a new one. -/
def pallocSmall (pool : Pool) (size : Nat) (align : Bool) (h : Heap) : Option Nat × Pool :=
  match (pool.blocks.drop pool.current).findIdx? fun b => size ≤ b.room align with
  | some k =>
      let i := pool.current + k
      (pool.blocks[i]?.map (Block.next align),
        { pool with blocks := pool.blocks.modify i fun b => { b with last := b.next align + size } })
  | none => pallocBlock pool size h

/-! ## Large allocations -/

def Large.free (l : Large) : Bool := l.alloc.isNone

/-- `uct_palloc_large`. A freed record is looked for among the first 5 only. -/
def pallocLarge (pool : Pool) (h : Heap) : Option Nat × Pool :=
  match h.malloc with
  | none => (none, pool)
  | some p =>
      match (pool.large.take 5).findIdx? Large.free with
      | some i => (some p, { pool with large := pool.large.modify i fun l => { l with alloc := some p } })
      | none =>
          match pallocSmall pool sizeofPoolLarge true h with
          | (some record, pool) => (some p, { pool with large := ⟨record, some p⟩ :: pool.large })
          | (none, pool) => (none, pool)

/-- `uct_palloc`. -/
def palloc (pool : Pool) (size : Nat) (h : Heap) : Option Nat × Pool :=
  if size ≤ pool.max then pallocSmall pool size true h else pallocLarge pool h

/-- `uct_pnalloc`. -/
def pnalloc (pool : Pool) (size : Nat) (h : Heap) : Option Nat × Pool :=
  if size ≤ pool.max then pallocSmall pool size false h else pallocLarge pool h

/-- `uct_pcalloc`. The bytes are set to 0, which no pool depends on. -/
def pcalloc (pool : Pool) (size : Nat) (h : Heap) : Option Nat × Pool := palloc pool size h

/-- `uct_pmemalign`, where `p` is what `posix_memalign` returns for the block itself. -/
def pmemalign (pool : Pool) (p : Option Nat) (h : Heap) : Option Nat × Pool :=
  match p with
  | none => (none, pool)
  | some p =>
      match pallocSmall pool sizeofPoolLarge true h with
      | (some record, pool) => (some p, { pool with large := ⟨record, some p⟩ :: pool.large })
      | (none, pool) => (none, pool)

/-- `uct_pfree`. -/
def pfree (pool : Pool) (p : Option Nat) : Bool × Pool :=
  match pool.large.findIdx? (·.alloc = p) with
  | some i => (true, { pool with large := pool.large.modify i fun l => { l with alloc := none } })
  | none => (false, pool)

/-- Number of records with a block that is not freed. -/
def Pool.live (pool : Pool) : Nat := pool.large.countP fun l => !l.free

end Umicat.Memory
