import Umicat.Base.Splice

/-!
# The middle of a queue and its order

`uct_queue_middle` and `uct_queue_sort` (`uct_queue.c`) on the pointers of the nodes. The loops have a
bound on their rounds, and there is no result when it is too small.
-/

namespace Umicat.Queue

open Umicat.Base

variable {α : Type} [DecidableEq α]

/-- The loop of `uct_queue_middle`. -/
def middleLoop (m : Links α) (queue : α) : Nat → α → α → Option α
  | 0, _, _ => none
  | n + 1, middle, next =>
      let middle := m.next middle
      let next := m.next next
      if next = m.prev queue then some middle
      else
        let next := m.next next
        if next = m.prev queue then some middle else middleLoop m queue n middle next

/-- `uct_queue_middle`. -/
def queueMiddle (m : Links α) (queue : α) (n : Nat) : Option α :=
  let middle := m.next queue
  if middle = m.prev queue then some middle else middleLoop m queue n middle (m.next queue)

/-- The inner loop of `uct_queue_sort`: the node behind which `q` goes. -/
def searchLoop (cmp : α → α → Int) (m : Links α) (queue q : α) : Nat → α → Option α
  | 0, _ => none
  | n + 1, prev =>
      if cmp prev q ≤ 0 then some prev
      else
        let prev := m.prev prev
        if prev = queue then some prev else searchLoop cmp m queue q n prev

/-- The outer loop of `uct_queue_sort`. -/
def sortLoop (cmp : α → α → Int) (queue : α) (rounds : Nat) : Nat → Links α → α → Option (Links α)
  | 0, _, _ => none
  | n + 1, m, q =>
      if q = queue then some m
      else do
        let prev := m.prev q
        let next := m.next q
        let m := m.remove q
        let prev ← searchLoop cmp m queue q rounds prev
        sortLoop cmp queue rounds n (m.insertHead prev q) next

/-- `uct_queue_sort`. -/
def queueSort (cmp : α → α → Int) (m : Links α) (queue : α) (n : Nat) : Option (Links α) :=
  let q := m.next queue
  if q = m.prev queue then some m else sortLoop cmp queue n n m (m.next q)

end Umicat.Queue
