import Umicat.Base.Buffer
import Umicat.Memory.Pool

/-!
# Arrays in a pool

The growing arrays of `uct_array.c` over addresses. Sizes, counts and addresses are 64 bits wide, and
no operation checks whether a product or a sum is. An array that is full takes the space behind it if
it is the last allocation of the first block, else it moves to a new allocation.
-/

namespace Umicat.Memory

open Umicat.Base

/-- `sizeof(uct_array_t)`. -/
def sizeofArray : Nat := 40

/-- `uct_array_t`, without the pool, which is passed along. -/
structure Arr where
  elts : Nat
  nelts : Nat
  size : Nat
  nalloc : Nat
deriving Repr, DecidableEq

/-- A value of 64 bits. -/
def word (n : Nat) : Nat := n % 2 ^ 64

/-! ## Creation -/

/-- `uct_array_init`. -/
def arrayInit (pool : Pool) (n size : Nat) (h : Heap) : Option Arr × Pool :=
  match palloc pool (word (n * size)) h with
  | (none, pool) => (none, pool)
  | (some elts, pool) => (some ⟨elts, 0, size, n⟩, pool)

/-- `uct_array_create`, with the address of the array. The library is asked up to two times. -/
def arrayCreate (pool : Pool) (n size : Nat) (h h' : Heap) : Option (Nat × Arr) × Pool :=
  match palloc pool sizeofArray h with
  | (none, pool) => (none, pool)
  | (some a, pool) =>
      match arrayInit pool n size h' with
      | (none, pool) => (none, pool)
      | (some arr, pool) => (some (a, arr), pool)

/-! ## Pushing elements -/

/-- `p->d`. -/
def Pool.d (pool : Pool) : Block := pool.blocks.headD ⟨0, 0, 0, 0⟩

/-- `p->d.last += n`. -/
def Pool.advance (pool : Pool) (n : Nat) : Pool :=
  { pool with blocks := pool.blocks.modify 0 fun b => { b with last := word (b.last + n) } }

/-- What a push returns and leaves behind. `copied` is the number of bytes that `uct_memcpy` copies from
the old elements to the new ones. -/
structure Pushed where
  elt : Option Nat
  arr : Arr
  pool : Pool
  copied : Nat
deriving Repr, DecidableEq

/-- The end of both functions: the next `n` elements are in use. -/
def Arr.take (a : Arr) (n : Nat) (pool : Pool) (copied : Nat) : Pushed where
  elt := some (word (a.elts + word (a.size * a.nelts)))
  arr := { a with nelts := word (a.nelts + n) }
  pool := pool
  copied := copied

/-- `uct_array_push`. -/
def arrayPush (a : Arr) (pool : Pool) (h : Heap) : Pushed :=
  if a.nelts = a.nalloc then
    let size := word (a.size * a.nalloc)
    if word (a.elts + size) = pool.d.last ∧ word (pool.d.last + a.size) ≤ pool.d.stop then
      Arr.take { a with nalloc := word (a.nalloc + 1) } 1 (pool.advance a.size) 0
    else
      match palloc pool (word (2 * size)) h with
      | (none, pool) => ⟨none, a, pool, 0⟩
      | (some new, pool) => Arr.take { a with elts := new, nalloc := word (a.nalloc * 2) } 1 pool size
  else a.take 1 pool 0

/-- `uct_array_push_n`. -/
def arrayPushN (a : Arr) (n : Nat) (pool : Pool) (h : Heap) : Pushed :=
  let size := word (n * a.size)
  if word (a.nelts + n) > a.nalloc then
    if word (a.elts + word (a.size * a.nalloc)) = pool.d.last ∧ word (pool.d.last + size) ≤ pool.d.stop
    then
      Arr.take { a with nalloc := word (a.nalloc + n) } n (pool.advance size) 0
    else
      let nalloc := word (2 * if n ≥ a.nalloc then n else a.nalloc)
      match palloc pool (word (nalloc * a.size)) h with
      | (none, pool) => ⟨none, a, pool, 0⟩
      | (some new, pool) =>
          Arr.take { a with elts := new, nalloc := nalloc } n pool (word (a.nelts * a.size))
  else a.take n pool 0

/-- The memory behind a push on `a`. -/
def Pushed.memory (r : Pushed) (a : Arr) (mem : Nat → UInt8) : Nat → UInt8 :=
  store mem r.arr.elts (load mem a.elts r.copied)

end Umicat.Memory
