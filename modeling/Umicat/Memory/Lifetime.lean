import Umicat.Base.Ledger
import Umicat.Memory.Theorems.Disjoint

/-!
# From the creation of a pool to its end

`uct_reset_pool` and `uct_destroy_pool`, and what each operation of `uct_palloc.c` asks of the
library. A block is named by its address. An answer of the library that is NULL is no call here: it
gives nothing that has to be freed.
-/

namespace Umicat.Memory

open Umicat.Base

/-! ## Reset -/

/-- The blocks lose their contents. Every block is set up as if it held the whole pool header. -/
def Block.reset (b : Block) : Block := { b with last := b.base + sizeofPool, failed := 0 }

/-- `uct_reset_pool`. -/
def resetPool (pool : Pool) : Pool :=
  { pool with blocks := pool.blocks.map Block.reset, current := 0, large := [] }

/-! ## Calls of the library -/

/-- The large blocks that are not freed, in the order of the records. -/
def Pool.largeBlocks (pool : Pool) : List Nat := pool.large.filterMap Large.alloc

def createCalls (h : Heap) : List (Entry Nat) := h.memalign.toList.map .alloc

/-- `uct_palloc_small` calls the library when no block from `current` on has room. -/
def pallocSmallCalls (pool : Pool) (size : Nat) (align : Bool) (h : Heap) : List (Entry Nat) :=
  match (pool.blocks.drop pool.current).findIdx? fun b => size ≤ b.room align with
  | some _ => []
  | none => h.memalign.toList.map .alloc

/-- The record of a large block; without memory for it the block is freed again. -/
def recordCalls (pool : Pool) (p : Nat) (h : Heap) : List (Entry Nat) :=
  pallocSmallCalls pool sizeofPoolLarge true h ++
    match (pallocSmall pool sizeofPoolLarge true h).1 with
    | some _ => []
    | none => [.free p]

def pallocLargeCalls (pool : Pool) (h : Heap) : List (Entry Nat) :=
  match h.malloc with
  | none => []
  | some p =>
      .alloc p ::
        match (pool.large.take 5).findIdx? Large.free with
        | some _ => []
        | none => recordCalls pool p h

def pmemalignCalls (pool : Pool) (p : Option Nat) (h : Heap) : List (Entry Nat) :=
  match p with
  | none => []
  | some p => .alloc p :: recordCalls pool p h

/-- The calls of an allocation of `size` bytes. -/
def pallocCalls (pool : Pool) (size : Nat) (align : Bool) (h : Heap) : List (Entry Nat) :=
  if size ≤ pool.max then pallocSmallCalls pool size align h else pallocLargeCalls pool h

def Request.calls (pool : Pool) : Request → List (Entry Nat)
  | .palloc size h => pallocCalls pool size true h
  | .pnalloc size h => pallocCalls pool size false h
  | .pcalloc size h => pallocCalls pool size true h
  | .pmemalign _ p h => pmemalignCalls pool p h

/-- `uct_pfree` frees the block of the first record that has it. `free(NULL)` does nothing. -/
def pfreeCalls (pool : Pool) (p : Option Nat) : List (Entry Nat) :=
  match pool.large.findIdx? (·.alloc = p) with
  | some _ => p.toList.map .free
  | none => []

def resetCalls (pool : Pool) : List (Entry Nat) := pool.largeBlocks.map .free

/-- `uct_destroy_pool`, without the handlers of `cleanup`. The next block is read from a block before
that block is freed. -/
def destroyCalls (pool : Pool) : List (Entry Nat) :=
  pool.largeBlocks.map .free ++ pool.blocks.flatMap fun b => [.read b.base, .free b.base]

/-! ## Lifetimes -/

inductive PoolOp
  | op (op : Op)
  | reset
deriving Repr, DecidableEq

def Op.next (pool : Pool) : Op → Pool
  | .request q => (q.call pool).2
  | .pfree p => (Memory.pfree pool p).2

def Op.calls (pool : Pool) : Op → List (Entry Nat)
  | .request q => q.calls pool
  | .pfree p => pfreeCalls pool p

def PoolOp.next (pool : Pool) : PoolOp → Pool
  | .op o => o.next pool
  | .reset => resetPool pool

def PoolOp.calls (pool : Pool) : PoolOp → List (Entry Nat)
  | .op o => o.calls pool
  | .reset => resetCalls pool

/-- The calls of a sequence of operations and of `uct_destroy_pool` behind it. -/
def Pool.calls (pool : Pool) : List PoolOp → List (Entry Nat)
  | [] => destroyCalls pool
  | o :: os => o.calls pool ++ Pool.calls (o.next pool) os

end Umicat.Memory
