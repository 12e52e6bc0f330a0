import Umicat.Base.Ring

/-!
# The listening pool

The acceptor adds accepted connections to a ring and workers take them out. `uct_listening_pool_add`
and `uct_listening_pool_get` each have two atomic steps: one on the ring under the spin lock, one on
the semaphore `items`. Connections and the sentinel `listen_q` are the nodes of the ring.
-/

namespace Umicat.Queue

open Umicat.Base

variable {α : Type} [DecidableEq α]

/-- Where a thread is: outside of the pool, between the steps of `add`, or between those of
`get`. -/
inductive Pc
  | outside
  | adding
  | getting
deriving Repr, DecidableEq

/-- The pool, with the connections inserted and removed so far, in order. -/
structure Pool (α : Type) where
  links : Links α
  items : Nat
  threads : List Pc
  inserted : List α
  removed : List α

def Pool.waiting (s : Pool α) : List α := s.inserted.drop s.removed.length

/-- `uct_listening_pool_init`, with `n` threads. -/
def listeningPoolInit (links : Links α) (listenQ : α) (n : Nat) : Pool α :=
  ⟨links.init listenQ, 0, List.replicate n .outside, [], []⟩

inductive Action (α : Type)
  | insert (t : Nat) (conn : α)
  | post (t : Nat)
  | trywait (t : Nat)
  | remove (t : Nat)
deriving Repr, DecidableEq

/-- A step, where it is enabled. A connection that is added is not in the pool: the acceptor has just
made it. -/
def Pool.step (listenQ : α) (s : Pool α) : Action α → Option (Pool α)
  | .insert t conn =>
      if s.threads[t]? = some .outside ∧ conn ≠ listenQ ∧ conn ∉ s.waiting then
        some { s with
          links := s.links.insertHead listenQ conn
          threads := s.threads.set t .adding
          inserted := s.inserted ++ [conn] }
      else none
  | .post t =>
      if s.threads[t]? = some .adding then
        some { s with items := s.items + 1, threads := s.threads.set t .outside }
      else none
  | .trywait t =>
      if s.threads[t]? = some .outside then
        -- `sem_trywait` fails on 0 and `get` returns NULL
        if s.items = 0 then some s
        else some { s with items := s.items - 1, threads := s.threads.set t .getting }
      else none
  | .remove t =>
      if s.threads[t]? = some .getting then
        let q := s.links.prev listenQ
        some { s with
          links := s.links.remove q
          threads := s.threads.set t .outside
          removed := s.removed ++ [q] }
      else none

inductive Reachable (links : Links α) (listenQ : α) (n : Nat) : Pool α → Prop
  | init : Reachable links listenQ n (listeningPoolInit links listenQ n)
  | step {s s' : Pool α} (a : Action α) (h : Reachable links listenQ n s)
      (ha : s.step listenQ a = some s') : Reachable links listenQ n s'

end Umicat.Queue
