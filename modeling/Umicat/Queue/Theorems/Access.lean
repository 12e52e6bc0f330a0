import Umicat.Base.Run
import Umicat.Queue.Access
import Umicat.Queue.Theorems.Fifo

/-!
# The spin lock makes the operations of the pool atomic

Every run of the pool access by access is a run of the pool with atomic operations, which take place at
the unlock.
-/

namespace Umicat.Queue

open Umicat.Base

variable {α : Type} {listenQ : α} {f f' : AccessPool α} {s s' : Pool α} {t : Nat} {conn : α}
  {p q : Place Spot (Op α) (Regs α)} {threads : List (Place Spot (Op α) (Regs α))}

/-- Where the thread is for the pool with atomic operations. -/
def pcOf : Place Spot (Op α) (Regs α) → Pc
  | .here .outside => .outside
  | .here .posting => .adding
  | .spinning (.insert _) => .outside
  | .spinning .remove => .getting
  | .inside (.insert _) _ _ => .outside
  | .inside .remove _ _ => .getting

theorem map_set_same (h : threads[t]? = some p) (hpc : pcOf q = pcOf p) :
    (threads.set t q).map pcOf = threads.map pcOf := by
  refine List.ext_getElem? fun i => ?_
  rw [List.map_set, List.getElem?_set]
  split
  · next hi =>
      obtain ⟨ht, -⟩ := List.getElem?_eq_some_iff.mp h
      rw [← hi, List.length_map, if_pos ht, List.getElem?_map, h, hpc]
      rfl
  · rfl

variable [DecidableEq α]

/-! ## Sections -/

theorem run_insert (h conn : α) (m : Links α) :
    ((sections h).run (.insert conn) m).1 = m.insertHead h conn := rfl

theorem run_remove (h : α) (m : Links α) :
    ((sections h).run .remove m).1 = m.remove (m.prev h) ∧
      ((sections h).run .remove m).2.q = m.prev h := ⟨rfl, rfl⟩

/-! ## Connections that are about to be inserted -/

/-- The connections that threads are about to insert are new, and different from each other. -/
structure Bringing (listenQ : α) (waiting : List α)
    (threads : List (Place Spot (Op α) (Regs α))) : Prop where
  fresh : ∀ (t : Nat) p conn, threads[t]? = some p → brings conn p = true →
    conn ≠ listenQ ∧ conn ∉ waiting
  distinct : ∀ (t t' : Nat) p p' conn, threads[t]? = some p → threads[t']? = some p' →
    brings conn p = true → brings conn p' = true → t = t'

variable {waiting waiting' : List α}

theorem Bringing.mono (h : Bringing listenQ waiting threads)
    (hw : ∀ conn ∈ waiting', conn ∈ waiting) : Bringing listenQ waiting' threads := by
  refine ⟨fun t p conn hp hb => ?_, h.distinct⟩
  obtain ⟨hne, hnot⟩ := h.fresh t p conn hp hb
  exact ⟨hne, mt (hw conn) hnot⟩

/-- A thread goes on and brings nothing else. -/
theorem Bringing.set (h : Bringing listenQ waiting threads) (ht : threads[t]? = some p)
    (hq : ∀ conn, brings conn q = true → brings conn p = true) :
    Bringing listenQ waiting (threads.set t q) := by
  have hold : ∀ (t' : Nat) p' conn, (threads.set t q)[t']? = some p' → brings conn p' = true →
      ∃ p'', threads[t']? = some p'' ∧ brings conn p'' = true := by
    intro t' p' conn hp' hb
    rcases getElem?_set_eq_some hp' with ⟨rfl, rfl⟩ | ⟨-, hsome⟩
    · exact ⟨p, ht, hq conn hb⟩
    · exact ⟨p', hsome, hb⟩
  refine ⟨fun t' p' conn hp' hb => ?_, fun t₁ t₂ p₁ p₂ conn h₁ h₂ hb₁ hb₂ => ?_⟩
  · obtain ⟨p'', hp'', hb''⟩ := hold t' p' conn hp' hb
    exact h.fresh t' p'' conn hp'' hb''
  · obtain ⟨p₁', h₁', hb₁'⟩ := hold t₁ p₁ conn h₁ hb₁
    obtain ⟨p₂', h₂', hb₂'⟩ := hold t₂ p₂ conn h₂ hb₂
    exact h.distinct t₁ t₂ p₁' p₂' conn h₁' h₂' hb₁' hb₂'

theorem Bringing.add (h : Bringing listenQ waiting threads) (hne : conn ≠ listenQ)
    (hw : conn ∉ waiting) (hnone : ∀ p ∈ threads, brings conn p = false) :
    Bringing listenQ waiting (threads.set t (.spinning (.insert conn))) := by
  have hnone : ∀ (t' : Nat) p', threads[t']? = some p' → brings conn p' = true → False := by
    intro t' p' hp' hb
    rw [hnone p' (List.mem_of_getElem? hp')] at hb
    cases hb
  have hself : ∀ c, brings c (.spinning (.insert conn)) = true → conn = c :=
    fun c hb => of_decide_eq_true hb
  refine ⟨fun t' p' c hp' hb => ?_, fun t₁ t₂ p₁ p₂ c h₁ h₂ hb₁ hb₂ => ?_⟩
  · rcases getElem?_set_eq_some hp' with ⟨-, rfl⟩ | ⟨-, hsome⟩
    · obtain rfl := hself c hb
      exact ⟨hne, hw⟩
    · exact h.fresh t' p' c hsome hb
  · rcases getElem?_set_eq_some h₁ with ⟨rfl, rfl⟩ | ⟨-, h₁⟩
    · obtain rfl := hself c hb₁
      rcases getElem?_set_eq_some h₂ with ⟨rfl, -⟩ | ⟨-, h₂⟩
      · rfl
      · exact (hnone t₂ p₂ h₂ hb₂).elim
    · rcases getElem?_set_eq_some h₂ with ⟨-, rfl⟩ | ⟨-, h₂⟩
      · obtain rfl := hself c hb₂
        exact (hnone t₁ p₁ h₁ hb₁).elim
      · exact h.distinct t₁ t₂ p₁ p₂ c h₁ h₂ hb₁ hb₂

/-- What a thread has inserted is none of the connections that the others bring. -/
theorem Bringing.inserted (h : Bringing listenQ waiting threads) (ht : threads[t]? = some p)
    (hp : brings conn p = true) (hq : ∀ c, brings c q = false)
    (hw : ∀ c ∈ waiting', c ∈ waiting ∨ c = conn) :
    Bringing listenQ waiting' (threads.set t q) := by
  have hset := h.set (q := q) ht fun c hb => by rw [hq c] at hb; cases hb
  refine ⟨fun t' p' c hp' hb => ?_, hset.distinct⟩
  obtain ⟨hne, hnot⟩ := hset.fresh t' p' c hp' hb
  refine ⟨hne, fun hmem => (hw c hmem).elim hnot ?_⟩
  rintro rfl
  rcases getElem?_set_eq_some hp' with ⟨-, rfl⟩ | ⟨hne', hsome⟩
  · rw [hq c] at hb
    cases hb
  · exact hne' (h.distinct t t' p p' c ht hsome hp hb)

/-! ## The simulation -/

/-- `s` is what the operations up to the last unlock have made of the pool. -/
structure AccessPool.Refines (listenQ : α) (f : AccessPool α) (s : Pool α) : Prop where
  ring : f.ring.Sound (sections listenQ) s.links
  items : s.items = f.items
  inserted : s.inserted = f.inserted
  removed : s.removed = f.removed
  threads : s.threads = f.ring.threads.map pcOf
  bringing : Bringing listenQ s.waiting f.ring.threads

theorem AccessPool.Refines.waiting_eq (h : f.Refines listenQ s) : s.waiting = f.waiting := by
  simp only [Pool.waiting, AccessPool.waiting, h.inserted, h.removed]

theorem AccessPool.Refines.pc (h : f.Refines listenQ s) (ht : f.ring.threads[t]? = some p) :
    s.threads[t]? = some (pcOf p) := by
  rw [h.threads, List.getElem?_map, ht]
  rfl

theorem AccessPool.Refines.set (h : f.Refines listenQ s) (t : Nat)
    (q : Place Spot (Op α) (Regs α)) :
    s.threads.set t (pcOf q) = (f.ring.threads.set t q).map pcOf := by
  rw [h.threads, List.map_set]

theorem accessPool_init_refines (links : Links α) (listenQ : α) (n : Nat) :
    (AccessPool.init links listenQ n).Refines listenQ (listeningPoolInit links listenQ n) := by
  have hplace : ∀ (t : Nat) p, (AccessPool.init links listenQ n).ring.threads[t]? = some p →
      p = .here .outside := by
    intro t p hp
    exact (List.mem_replicate.mp (List.mem_of_getElem? hp)).2
  refine ⟨⟨fun _ => rfl, ?_, ?_⟩, rfl, rfl, rfl, ?_, ⟨?_, ?_⟩⟩
  · intro t o k regs ht
    cases hplace t _ ht
  · rintro t t' ⟨o, k, regs, ht⟩
    cases hplace t _ ht
  · simp [AccessPool.init, listeningPoolInit, pcOf]
  · intro t p conn hp hb
    rw [hplace t p hp] at hb
    cases hb
  · intro t t' p p' conn hp _ hb
    rw [hplace t p hp] at hb
    cases hb

/-- A step that the other pool does not notice. -/
theorem AccessPool.Refines.quiet {g : Guarded (Links α) Spot (Op α) (Regs α)}
    (h : f.Refines listenQ s) (hring : g.Sound (sections listenQ) s.links)
    (hthreads : g.threads.map pcOf = f.ring.threads.map pcOf)
    (hbringing : Bringing listenQ s.waiting g.threads) : (f.withRing g).Refines listenQ s :=
  ⟨hring, h.items, h.inserted, h.removed, h.threads.trans hthreads.symm, hbringing⟩

theorem AccessPool.Refines.lock {g : Guarded (Links α) Spot (Op α) (Regs α)}
    (h : f.Refines listenQ s) (hg : f.ring.lock (sections listenQ) t = some g) :
    (f.withRing g).Refines listenQ s := by
  have hsound := h.ring.lock hg
  unfold Guarded.lock at hg
  split at hg
  · next o ht =>
      cases hlocked : f.ring.locked with
      | true =>
          simp only [hlocked, ↓reduceIte, Option.some.injEq] at hg
          subst hg
          exact h
      | false =>
          simp only [hlocked, Bool.false_eq_true, ↓reduceIte, Option.some.injEq] at hg
          subst hg
          refine h.quiet hsound (map_set_same ht ?_) (h.bringing.set ht ?_)
          · cases o <;> rfl
          · cases o <;> exact fun _ => id
  · cases hg

theorem AccessPool.Refines.access {g : Guarded (Links α) Spot (Op α) (Regs α)}
    (h : f.Refines listenQ s) (hg : f.ring.access (sections listenQ) t = some g) :
    (f.withRing g).Refines listenQ s := by
  have hsound := h.ring.access hg
  unfold Guarded.access at hg
  split at hg
  · next o k regs ht =>
      obtain ⟨access, -, rfl⟩ := Option.map_eq_some_iff.mp hg
      refine h.quiet hsound (map_set_same ht ?_) (h.bringing.set ht ?_)
      · cases o <;> rfl
      · cases o <;> exact fun _ => id
  · cases hg

/-- At the unlock the operation takes place in the other pool. -/
theorem AccessPool.Refines.unlock {o : Op α} {regs : Regs α} (h : f.Refines listenQ s)
    (hdone : f.ring.done (sections listenQ) t = some (o, regs)) :
    ∃ a s', s.step listenQ a = some s' ∧ (f.unlocked t o regs).Refines listenQ s' := by
  have ht := Guarded.inside_of_done hdone
  have hpc := h.pc ht
  cases o with
  | insert conn =>
      obtain ⟨hring, -⟩ := h.ring.unlock hdone .posting
      rw [run_insert] at hring
      obtain ⟨hne, hnew⟩ := h.bringing.fresh t _ conn ht (decide_eq_true rfl)
      refine ⟨.insert t conn, _, if_pos ⟨hpc, hne, hnew⟩, hring, h.items, ?_, h.removed, ?_, ?_⟩
      · exact congrArg (· ++ [conn]) h.inserted
      · exact h.set t (.here .posting)
      · refine h.bringing.inserted ht (decide_eq_true rfl) (fun _ => rfl) fun c hc => ?_
        simp only [Pool.waiting, List.drop_append, List.mem_append] at hc
        exact hc.imp_right fun hc => List.mem_singleton.mp (List.mem_of_mem_drop hc)
  | remove =>
      obtain ⟨hring, hregs⟩ := h.ring.unlock hdone .outside
      rw [(run_remove listenQ s.links).1] at hring
      refine ⟨.remove t, _, if_pos hpc, hring, h.items, h.inserted, ?_, ?_, ?_⟩
      · simp only [AccessPool.unlocked, AccessPool.withRing, h.removed, hregs,
          (run_remove listenQ s.links).2]
      · exact h.set t (.here .outside)
      · have hset := h.bringing.set (q := .here .outside) ht fun _ hb => absurd hb Bool.false_ne_true
        refine hset.mono fun c hc => ?_
        simp only [Pool.waiting, List.length_append, ← List.drop_drop] at hc ⊢
        exact List.mem_of_mem_drop hc

theorem AccessPool.Refines.step {a : AccessAction α} (h : f.Refines listenQ s)
    (ha : f.step listenQ a = some f') :
    f'.Refines listenQ s ∨ ∃ b s', s.step listenQ b = some s' ∧ f'.Refines listenQ s' := by
  cases a with
  | add t conn =>
      simp only [AccessPool.step] at ha
      split at ha
      · next hc =>
          cases ha
          obtain ⟨ht, hne, hnew, hnone⟩ := hc
          rw [← h.waiting_eq] at hnew
          exact .inl (h.quiet (h.ring.goto fun _ _ _ => nofun) (map_set_same ht rfl)
            (h.bringing.add hne hnew hnone))
      · cases ha
  | get t =>
      simp only [AccessPool.step] at ha
      split at ha
      · next ht =>
          split at ha
          · cases ha
            exact .inl h
          · next hitems =>
              cases ha
              rw [← h.items] at hitems
              refine .inr ⟨.trywait t, _, (if_pos (h.pc ht)).trans (if_neg hitems), ?_⟩
              exact ⟨h.ring.goto fun _ _ _ => nofun, congrArg (· - 1) h.items, h.inserted,
                h.removed, h.set t (.spinning .remove), h.bringing.set ht fun _ => nofun⟩
      · cases ha
  | lock t =>
      obtain ⟨g, hg, rfl⟩ := Option.map_eq_some_iff.mp ha
      exact .inl (h.lock hg)
  | access t =>
      obtain ⟨g, hg, rfl⟩ := Option.map_eq_some_iff.mp ha
      exact .inl (h.access hg)
  | unlock t =>
      obtain ⟨x, hdone, rfl⟩ := Option.map_eq_some_iff.mp ha
      exact .inr (h.unlock hdone)
  | post t =>
      simp only [AccessPool.step] at ha
      split at ha
      · next ht =>
          cases ha
          refine .inr ⟨.post t, _, if_pos (h.pc ht), ?_⟩
          exact ⟨h.ring.goto fun _ _ _ => nofun, congrArg (· + 1) h.items, h.inserted, h.removed,
            h.set t (.here .outside), h.bringing.set ht fun _ => nofun⟩
      · cases ha

theorem AccessReachable.refines {links : Links α} {n : Nat}
    (h : AccessReachable links listenQ n f) :
    ∃ s, Reachable links listenQ n s ∧ f.Refines listenQ s := by
  induction h with
  | init => exact ⟨_, .init, accessPool_init_refines links listenQ n⟩
  | step a _ ha ih =>
      obtain ⟨s, hs, hrefines⟩ := ih
      rcases hrefines.step ha with hquiet | ⟨b, s', hb, hnext⟩
      · exact ⟨s, hs, hquiet⟩
      · exact ⟨s', hs.step b hb, hnext⟩

/-- In every state that any threads reach by any interleaving of single accesses: at most one of them
is between its lock and its unlock, and the pool is what the pool with atomic operations is in some
state that it can reach, up to the accesses made under the lock. What left the ring left it in the order
in which it came. -/
theorem accesses_atomic {links : Links α} {n : Nat} (h : AccessReachable links listenQ n f) :
    (∀ t t', f.ring.Inside t → f.ring.Inside t' → t = t') ∧
      ∃ s, Reachable links listenQ n s ∧ s.items = f.items ∧ s.inserted = f.inserted ∧
        s.removed = f.removed ∧ s.threads = f.ring.threads.map pcOf ∧
        (f.ring.locked = false → f.ring.shared = s.links) ∧ listenQ ∉ f.removed ∧
        ∃ queued, Ring s.links listenQ queued ∧ f.inserted = f.removed ++ queued.reverse := by
  obtain ⟨s, hs, hrefines⟩ := h.refines
  obtain ⟨queued, hsound⟩ := hs.sound
  have hfifo := hsound.fifo
  rw [hrefines.inserted, hrefines.removed] at hfifo
  have hsentinel : listenQ ∉ f.inserted := hrefines.inserted ▸ hsound.sentinel
  refine ⟨hrefines.ring.one, s, hs, hrefines.items, hrefines.inserted, hrefines.removed,
    hrefines.threads, hrefines.ring.free, fun hmem => hsentinel ?_, queued, hsound.ring, hfifo⟩
  rw [hfifo]
  exact List.mem_append_left _ hmem

theorem AccessReachable.run {links : Links α} {n : Nat} {as : List (AccessAction α)}
    (h : AccessReachable links listenQ n f) (hrun : as.foldlM (AccessPool.step listenQ) f = some f') :
    AccessReachable links listenQ n f' :=
  invariant_foldlM (fun _ a _ _ hs ha => hs.step a ha) h hrun

/-- Two threads add at the same time, and one of them has to wait for the lock. Then the first
connection is taken. -/
theorem accesses_atomic_two :
    ∃ f : AccessPool Nat, f.removed = [7] ∧ f.inserted = [7, 8] ∧ f.ring.locked = false ∧
      (∀ t t', f.ring.Inside t → f.ring.Inside t' → t = t') ∧
      ∃ s, Reachable ⟨id, id⟩ 0 2 s ∧ s.items = f.items ∧ s.inserted = f.inserted ∧
        s.removed = f.removed ∧ s.threads = f.ring.threads.map pcOf ∧
        (f.ring.locked = false → f.ring.shared = s.links) ∧ 0 ∉ f.removed ∧
        ∃ queued, Ring s.links 0 queued ∧ f.inserted = f.removed ++ queued.reverse := by
  let f : AccessPool Nat := .init ⟨id, id⟩ 0 2
  let as : List (AccessAction Nat) := [.add 0 7, .add 1 8, .lock 0, .access 0, .lock 1, .access 0,
    .access 0, .lock 1, .access 0, .access 0, .access 0, .unlock 0, .lock 1, .access 1, .post 0,
    .access 1, .access 1, .access 1, .get 0, .access 1, .lock 0, .access 1, .unlock 1, .lock 0,
    .access 0, .access 0, .access 0, .access 0, .access 0, .access 0, .access 0, .unlock 0]
  have hrun : (as.foldlM (AccessPool.step 0) f).map (fun f =>
      (f.removed, f.inserted, f.ring.locked)) = some ([7], [7, 8], false) := by decide +kernel
  obtain ⟨f', hrun, heq⟩ := Option.map_eq_some_iff.mp hrun
  simp only [Prod.mk.injEq] at heq
  have hreach : AccessReachable ⟨id, id⟩ 0 2 f' := AccessReachable.init.run hrun
  exact ⟨f', heq.1, heq.2.1, heq.2.2, accesses_atomic hreach⟩

end Umicat.Queue
