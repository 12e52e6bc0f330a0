import Umicat.Queue.Pool

/-!
# The listening pool is a lossless queue
-/

namespace Umicat.Queue

open Umicat.Base

variable {α : Type}

/-- The connections on the ring are `queued`, the newest first, and each of them is announced by
`items` or by a thread between its two steps. -/
structure Pool.Sound (listenQ : α) (s : Pool α) (queued : List α) : Prop where
  ring : Ring s.links listenQ queued
  fifo : s.inserted = s.removed ++ queued.reverse
  sentinel : listenQ ∉ s.inserted
  balance : s.items + s.threads.count .getting + s.threads.count .adding = queued.length

variable {listenQ : α} {s s' : Pool α} {queued : List α}

theorem Pool.Sound.waiting (h : s.Sound listenQ queued) : s.waiting = queued.reverse := by
  rw [Pool.waiting, h.fifo, List.drop_left]

def Pc.busy : Pc → Nat
  | .outside => 0
  | _ => 1

theorem busy_set {l : List Pc} {t : Nat} {p : Pc} (h : l[t]? = some p) (p' : Pc) :
    (l.set t p').count .getting + (l.set t p').count .adding + p.busy =
      l.count .getting + l.count .adding + p'.busy := by
  obtain ⟨ht, rfl⟩ := List.getElem?_eq_some_iff.mp h
  have hpos : 0 < l.count l[t] := List.count_pos_iff.mpr (List.getElem_mem ht)
  rw [List.count_set ht, List.count_set ht]
  generalize l[t] = p at *
  cases p <;> cases p' <;> simp only [Pc.busy, beq_iff_eq, reduceCtorEq, ↓reduceIte] <;> omega

theorem Pool.Sound.post {t : Nat} (h : s.Sound listenQ queued)
    (ht : s.threads[t]? = some .adding) :
    Pool.Sound listenQ { s with items := s.items + 1, threads := s.threads.set t .outside }
      queued := by
  refine ⟨h.ring, h.fifo, h.sentinel, ?_⟩
  have hbusy := busy_set ht .outside
  have hbalance := h.balance
  simp only [Pc.busy] at hbusy ⊢
  omega

theorem Pool.Sound.trywait {t : Nat} (h : s.Sound listenQ queued)
    (ht : s.threads[t]? = some .outside) (hitems : s.items ≠ 0) :
    Pool.Sound listenQ { s with items := s.items - 1, threads := s.threads.set t .getting }
      queued := by
  refine ⟨h.ring, h.fifo, h.sentinel, ?_⟩
  have hbusy := busy_set ht .getting
  have hbalance := h.balance
  simp only [Pc.busy] at hbusy ⊢
  omega

variable [DecidableEq α]

theorem listeningPoolInit_sound (links : Links α) (listenQ : α) (n : Nat) :
    (listeningPoolInit links listenQ n).Sound listenQ [] :=
  ⟨ring_init links listenQ, rfl, by simp [listeningPoolInit],
    by simp [listeningPoolInit, List.count_replicate]⟩

theorem Pool.Sound.insert {t : Nat} {conn : α} (h : s.Sound listenQ queued)
    (ht : s.threads[t]? = some .outside) (hne : conn ≠ listenQ) (hnew : conn ∉ s.waiting) :
    Pool.Sound listenQ { s with
      links := s.links.insertHead listenQ conn
      threads := s.threads.set t .adding
      inserted := s.inserted ++ [conn] } (conn :: queued) := by
  have hconn : conn ∉ listenQ :: queued := by
    rw [h.waiting, List.mem_reverse] at hnew
    exact fun hmem => (List.mem_cons.mp hmem).elim hne hnew
  refine ⟨h.ring.insertHead hconn, ?_, ?_, ?_⟩
  · simp [h.fifo]
  · simp [h.sentinel, hne.symm]
  · have hbusy := busy_set ht .adding
    have hbalance := h.balance
    simp only [Pc.busy, List.length_cons] at hbusy ⊢
    omega

theorem Pool.Sound.remove {t : Nat} (h : s.Sound listenQ queued)
    (ht : s.threads[t]? = some .getting) :
    ∃ rest, Pool.Sound listenQ { s with
      links := s.links.remove (s.links.prev listenQ)
      threads := s.threads.set t .outside
      removed := s.removed ++ [s.links.prev listenQ] } rest := by
  have hbusy := busy_set ht .outside
  have hbalance := h.balance
  simp only [Pc.busy] at hbusy
  rcases List.eq_nil_or_concat' queued with rfl | ⟨rest, q, rfl⟩
  · simp only [List.length_nil] at hbalance
    omega
  · rw [h.ring.prev_sentinel]
    refine ⟨rest, h.ring.removeLast, ?_, h.sentinel, ?_⟩
    · simp [h.fifo]
    · simp only [List.length_append, List.length_singleton] at hbalance
      simp only
      omega

theorem Pool.Sound.step {a : Action α} (h : s.Sound listenQ queued)
    (ha : s.step listenQ a = some s') : ∃ queued', s'.Sound listenQ queued' := by
  cases a with
  | insert t conn =>
      simp only [Pool.step] at ha
      split at ha
      · next hc =>
          cases ha
          exact ⟨conn :: queued, h.insert hc.1 hc.2.1 hc.2.2⟩
      · cases ha
  | post t =>
      simp only [Pool.step] at ha
      split at ha
      · next hc =>
          cases ha
          exact ⟨queued, h.post hc⟩
      · cases ha
  | trywait t =>
      simp only [Pool.step] at ha
      split at ha
      · next hc =>
          split at ha
          · cases ha
            exact ⟨queued, h⟩
          · next hitems =>
              cases ha
              exact ⟨queued, h.trywait hc hitems⟩
      · cases ha
  | remove t =>
      simp only [Pool.step] at ha
      split at ha
      · next hc =>
          cases ha
          exact h.remove hc
      · cases ha

theorem Reachable.sound {links : Links α} {n : Nat} (h : Reachable links listenQ n s) :
    ∃ queued, s.Sound listenQ queued := by
  induction h with
  | init => exact ⟨[], listeningPoolInit_sound links listenQ n⟩
  | step a _ ha ih =>
      obtain ⟨queued, hq⟩ := ih
      exact hq.step ha

/-- In every state that any threads reach by any interleaving, the ring is well formed, connections
have left it in the order in which they came, the sentinel has not, and the semaphore counts the
connections up to the threads between their steps. -/
theorem listening_pool_fifo {links : Links α} {n : Nat} (h : Reachable links listenQ n s) :
    listenQ ∉ s.removed ∧
      ∃ queued, Ring s.links listenQ queued ∧
        (∀ a ∈ listenQ :: queued,
          s.links.prev (s.links.next a) = a ∧ s.links.next (s.links.prev a) = a) ∧
        s.inserted = s.removed ++ queued.reverse ∧
        s.items + s.threads.count .getting + s.threads.count .adding = queued.length := by
  obtain ⟨queued, hsound⟩ := h.sound
  refine ⟨fun hmem => hsound.sentinel ?_, queued, hsound.ring, fun a => hsound.ring.inverse,
    hsound.fifo, hsound.balance⟩
  rw [hsound.fifo]
  exact List.mem_append_left _ hmem

/-- Two threads add at the same time, and the one that came second posts first. Thread 2 takes the
connection that came first, thread 3 finds no item and then gets its turn. -/
theorem listening_pool_fifo_two :
    ∃ s : Pool Nat, Reachable ⟨id, id⟩ 0 4 s ∧ s.inserted = [7, 8] ∧ s.removed = [7] ∧
      s.threads = [.outside, .outside, .outside, .getting] ∧ 0 ∉ s.removed ∧
      ∃ queued, Ring s.links 0 queued ∧
        (∀ a ∈ 0 :: queued, s.links.prev (s.links.next a) = a ∧ s.links.next (s.links.prev a) = a) ∧
        s.inserted = s.removed ++ queued.reverse ∧
        s.items + s.threads.count .getting + s.threads.count .adding = queued.length := by
  have hstart : Reachable ⟨id, id⟩ 0 4 (listeningPoolInit ⟨id, id⟩ 0 4) := .init
  have hfirst := hstart.step (.insert 0 7) rfl
  have hsecond := hfirst.step (.insert 1 8) rfl
  have hpost := hsecond.step (.post 1) rfl
  have htaken := hpost.step (.trywait 2) rfl
  have hempty := htaken.step (.trywait 3) rfl
  have hremove := hempty.step (.remove 2) rfl
  have hpost' := hremove.step (.post 0) rfl
  have htaken' := hpost'.step (.trywait 3) rfl
  exact ⟨_, htaken', rfl, rfl, rfl, listening_pool_fifo htaken'⟩

end Umicat.Queue
