import Umicat.Base.Critical
import Umicat.Queue.Pool

/-!
# The listening pool, access by access

`uct_listening_pool_add` and `uct_listening_pool_get` with the spin lock, and with each access to the
pointers of the ring as a step of its own. Between any two steps of a thread the others go on. The
memory is sequentially consistent, and the calls on the lock and on the semaphore succeed.
-/

namespace Umicat.Queue

open Umicat.Base

variable {α : Type} [DecidableEq α]

/-! ## The critical sections -/

inductive Op (α : Type)
  | insert (conn : α)
  | remove
deriving Repr, DecidableEq

/-- The registers of a thread: the node at hand, and two others. -/
structure Regs (α : Type) where
  q : α
  r : α
  s : α
deriving Repr, DecidableEq

/-- `uct_queue_insert_head(h, x)` with `x` in `q`. -/
def insertHeadCode (h : α) : List (Links α × Regs α → Links α × Regs α) :=
  -- (x)->next = (h)->next;
  [fun y => (y.1, { y.2 with r := y.1.next h }),
    fun y => (y.1.setNext y.2.q y.2.r, y.2),
    -- (x)->next->prev = x;
    fun y => (y.1, { y.2 with r := y.1.next y.2.q }),
    fun y => (y.1.setPrev y.2.r y.2.q, y.2),
    -- (x)->prev = h;
    fun y => (y.1.setPrev y.2.q h, y.2),
    -- (h)->next = x
    fun y => (y.1.setNext h y.2.q, y.2)]

/-- `q = uct_queue_last(h)` and `uct_queue_remove(q)`. -/
def removeLastCode (h : α) : List (Links α × Regs α → Links α × Regs α) :=
  [fun y => (y.1, { y.2 with q := y.1.prev h }),
    -- (x)->next->prev = (x)->prev;
    fun y => (y.1, { y.2 with r := y.1.next y.2.q }),
    fun y => (y.1, { y.2 with s := y.1.prev y.2.q }),
    fun y => (y.1.setPrev y.2.r y.2.s, y.2),
    -- (x)->prev->next = (x)->next
    fun y => (y.1, { y.2 with r := y.1.prev y.2.q }),
    fun y => (y.1, { y.2 with s := y.1.next y.2.q }),
    fun y => (y.1.setNext y.2.r y.2.s, y.2)]

def Op.start (h : α) : Op α → Regs α
  | .insert conn => ⟨conn, h, h⟩
  | .remove => ⟨h, h, h⟩

def Op.code (h : α) : Op α → List (Links α × Regs α → Links α × Regs α)
  | .insert _ => insertHeadCode h
  | .remove => removeLastCode h

def sections (h : α) : Sections (Links α) (Op α) (Regs α) := ⟨Op.start h, Op.code h⟩

/-! ## Threads -/

/-- Where a thread is that neither has the lock nor waits for it: outside of the pool, or in front of
the last step of `add`. -/
inductive Spot
  | outside
  | posting
deriving Repr, DecidableEq

/-- The pool, with the connections inserted and removed so far, in order. -/
structure AccessPool (α : Type) where
  ring : Guarded (Links α) Spot (Op α) (Regs α)
  items : Nat
  inserted : List α
  removed : List α

def AccessPool.init (links : Links α) (listenQ : α) (n : Nat) : AccessPool α :=
  ⟨⟨links.init listenQ, false, List.replicate n (.here .outside)⟩, 0, [], []⟩

def AccessPool.waiting (f : AccessPool α) : List α := f.inserted.drop f.removed.length

def AccessPool.withRing (f : AccessPool α) (ring : Guarded (Links α) Spot (Op α) (Regs α)) :
    AccessPool α :=
  { f with ring := ring }

/-- The thread is about to insert `conn`. -/
def brings (conn : α) : Place Spot (Op α) (Regs α) → Bool
  | .spinning (.insert c) => c = conn
  | .inside (.insert c) _ _ => c = conn
  | _ => false

inductive AccessAction (α : Type)
  | add (t : Nat) (conn : α)
  | get (t : Nat)
  | lock (t : Nat)
  | access (t : Nat)
  | unlock (t : Nat)
  | post (t : Nat)
deriving Repr, DecidableEq

/-- The unlock behind a section. What `uct_listening_pool_get` returns is in `q`. -/
def AccessPool.unlocked (f : AccessPool α) (t : Nat) (o : Op α) (regs : Regs α) : AccessPool α :=
  match o with
  | .insert conn =>
      { f.withRing (f.ring.unlock t .posting) with inserted := f.inserted ++ [conn] }
  | .remove => { f.withRing (f.ring.unlock t .outside) with removed := f.removed ++ [regs.q] }

/-- A step, where it is enabled. A connection that is added is not in the pool, and no other thread is
adding it. -/
def AccessPool.step (listenQ : α) (f : AccessPool α) : AccessAction α → Option (AccessPool α)
  | .add t conn =>
      if f.ring.threads[t]? = some (.here .outside) ∧ conn ≠ listenQ ∧ conn ∉ f.waiting ∧
          ∀ p ∈ f.ring.threads, brings conn p = false then
        some (f.withRing (f.ring.goto t (.spinning (.insert conn))))
      else none
  | .get t =>
      if f.ring.threads[t]? = some (.here .outside) then
        if f.items = 0 then some f
        else some { f.withRing (f.ring.goto t (.spinning .remove)) with items := f.items - 1 }
      else none
  | .lock t => (f.ring.lock (sections listenQ) t).map f.withRing
  | .access t => (f.ring.access (sections listenQ) t).map f.withRing
  | .unlock t => (f.ring.done (sections listenQ) t).map fun x => f.unlocked t x.1 x.2
  | .post t =>
      if f.ring.threads[t]? = some (.here .posting) then
        some { f.withRing (f.ring.goto t (.here .outside)) with items := f.items + 1 }
      else none

inductive AccessReachable (links : Links α) (listenQ : α) (n : Nat) : AccessPool α → Prop
  | init : AccessReachable links listenQ n (.init links listenQ n)
  | step {f f' : AccessPool α} (a : AccessAction α) (h : AccessReachable links listenQ n f)
      (ha : f.step listenQ a = some f') : AccessReachable links listenQ n f'

end Umicat.Queue
