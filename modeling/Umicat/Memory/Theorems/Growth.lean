import Umicat.Base.Run
import Umicat.Memory.Pool
import Umicat.Relay.Flow
import Umicat.Relay.Lemmas.Loop

/-!
# The pools of a proxied pair

Every event of a pair takes a buffer of `UCT_BUF_SIZE` bytes from the pool of its connection. That is
more than a pool block can hold, so the buffer is a large block, and nothing frees it before the
pair is torn down.
-/

namespace Umicat.Memory

open Umicat.Base
open Umicat.Relay

/-! ## Frames -/

/-- Every record has its block, and a buffer does not fit in a pool block. -/
structure Pool.Full (pool : Pool) : Prop where
  live : ∀ l ∈ pool.large, l.free = false
  max_lt : pool.max < bufSize

variable {pool : Pool} {size : Nat} {align : Bool} {h : Heap}

theorem pallocBlock_frame (pool : Pool) (size : Nat) (h : Heap) :
    (pallocBlock pool size h).2.large = pool.large ∧ (pallocBlock pool size h).2.max = pool.max := by
  unfold pallocBlock
  split <;> exact ⟨rfl, rfl⟩

theorem pallocSmall_frame (pool : Pool) (size : Nat) (align : Bool) (h : Heap) :
    (pallocSmall pool size align h).2.large = pool.large ∧
      (pallocSmall pool size align h).2.max = pool.max := by
  unfold pallocSmall
  split
  · exact ⟨rfl, rfl⟩
  · exact pallocBlock_frame pool size h

/-- A small allocation fails only when it needs a new block and there is none. -/
theorem pallocSmall_isSome (hm : h.memalign.isSome) : (pallocSmall pool size align h).1.isSome := by
  unfold pallocSmall
  split
  · next k hk =>
      obtain ⟨hlt, -⟩ := List.findIdx?_eq_some_iff_getElem.mp hk
      rw [List.length_drop] at hlt
      simp only [Option.isSome_map, isSome_getElem?]
      omega
  · unfold pallocBlock
    split
    · next hnone => simp [hnone] at hm
    · rfl

theorem Pool.Full.small (hp : pool.Full) : (pallocSmall pool size align h).2.Full := by
  obtain ⟨hlarge, hmax⟩ := pallocSmall_frame pool size align h
  exact ⟨hlarge ▸ hp.live, hmax ▸ hp.max_lt⟩

/-! ## Large blocks -/

theorem findIdx?_free_eq_none (hp : pool.Full) : (pool.large.take 5).findIdx? Large.free = none := by
  rw [List.findIdx?_eq_none_iff]
  exact fun l hl => hp.live l (List.mem_of_mem_take hl)

theorem Pool.live_of_full (hp : pool.Full) : pool.live = pool.large.length := by
  rw [Pool.live, List.countP_eq_length]
  exact fun l hl => by simp [hp.live l hl]

theorem Pool.Full.large (hp : pool.Full) : (pallocLarge pool h).2.Full := by
  unfold pallocLarge
  split
  · exact hp
  · rw [findIdx?_free_eq_none hp]
    simp only
    have hsmall : (pallocSmall pool sizeofPoolLarge true h).2.Full := hp.small
    split
    · next record pool' heq =>
        rw [heq] at hsmall
        refine ⟨fun l hl => ?_, hsmall.max_lt⟩
        rcases List.mem_cons.mp hl with rfl | hl
        · rfl
        · exact hsmall.live l hl
    · next pool' heq =>
        rw [heq] at hsmall
        exact hsmall

/-- With no freed record to use again, a large block gets a record of its own. -/
theorem length_pallocLarge (hp : pool.Full) (hmalloc : h.malloc.isSome) (hm : h.memalign.isSome) :
    (pallocLarge pool h).2.large.length = pool.large.length + 1 := by
  unfold pallocLarge
  split
  · next hnone => simp [hnone] at hmalloc
  · rw [findIdx?_free_eq_none hp]
    simp only
    have hsome : (pallocSmall pool sizeofPoolLarge true h).1.isSome := pallocSmall_isSome hm
    obtain ⟨hlarge, -⟩ := pallocSmall_frame pool sizeofPoolLarge true h
    split
    · next record pool' heq =>
        rw [heq] at hlarge
        exact congrArg (·.length + 1) hlarge
    · next pool' heq =>
        rw [heq] at hsome
        cases hsome

theorem Pool.Full.pnalloc (hp : pool.Full) : (pnalloc pool size h).2.Full := by
  unfold Memory.pnalloc
  split
  · exact hp.small
  · exact hp.large

/-- A buffer adds one record. -/
theorem live_pnalloc_buf (hp : pool.Full) (hmalloc : h.malloc.isSome) (hm : h.memalign.isSome) :
    (Memory.pnalloc pool bufSize h).2.live = pool.live + 1 := by
  have hlarge : Memory.pnalloc pool bufSize h = pallocLarge pool h := if_neg (not_le.mpr hp.max_lt)
  rw [Pool.live_of_full hp.pnalloc, Pool.live_of_full hp, hlarge]
  exact length_pallocLarge hp hmalloc hm

/-! ## New connections -/

/-- `sizeof(uct_connection_t)`. -/
def sizeofConnection : Nat := 56

/-- `sizeof(uct_proxy_t)`. -/
def sizeofProxy : Nat := 32

/-- The pool of `uct_connection_init`, which allocates the connection and its two texts. -/
def connectionInit (pagesize : Nat) (create conn ip port : Heap) : Option Pool := do
  let pool ← createPool pagesize defaultPoolSize create
  let (c, pool) := Memory.pnalloc pool sizeofConnection conn
  let _ ← c
  let pool := (Memory.pnalloc pool (16 * 4) ip).2
  some (Memory.pnalloc pool 6 port).2

theorem full_createPool {pagesize : Nat} {pool : Pool}
    (hpool : createPool pagesize defaultPoolSize h = some pool) : pool.Full := by
  obtain ⟨p, -, rfl⟩ := Option.map_eq_some_iff.mp hpool
  refine ⟨nofun, ?_⟩
  have hroom : (defaultPoolSize + 2 ^ 64 - sizeofPool) % 2 ^ 64 = 16304 := by decide
  simp only [hroom]
  unfold bufSize
  split <;> omega

theorem full_connectionInit {pagesize : Nat} {create conn ip port : Heap} {pool : Pool}
    (hpool : connectionInit pagesize create conn ip port = some pool) : pool.Full := by
  simp only [connectionInit, Option.bind_eq_bind, Option.bind_eq_some_iff, Option.some.injEq] at hpool
  obtain ⟨pool', hcreate, c, -, rfl⟩ := hpool
  exact (full_createPool hcreate).pnalloc.pnalloc.pnalloc

/-- The pools of a pair: the client's as it was made, the upstream's with the pair record in it. -/
def Opened (client upstream : Pool) : Prop :=
  (∃ pagesize create conn ip port, connectionInit pagesize create conn ip port = some client) ∧
  ∃ pagesize create conn ip port pool proxy,
    connectionInit pagesize create conn ip port = some pool ∧
      upstream = (Memory.pnalloc pool sizeofProxy proxy).2

/-! ## Events -/

variable {β : Type}

structure Pooled (β : Type) where
  pair : Relay.Pair β
  client : Pool
  upstream : Pool

structure PoolEvent (β : Type) where
  heap : Heap
  event : TcpEvent β

def PoolEvent.isClient (e : PoolEvent β) : Bool :=
  match e.event with
  | .client _ _ => true
  | .upstream _ => false

/-- An event of a pair that waits for events: the buffer, then the relay loop. -/
def Pooled.step (g : Pooled β) (e : PoolEvent β) : Pooled β :=
  if g.pair.status = .drained then
    let pair := g.pair.handle e.event
    if e.isClient then { g with pair := pair, client := (Memory.pnalloc g.client bufSize e.heap).2 }
    else { g with pair := pair, upstream := (Memory.pnalloc g.upstream bufSize e.heap).2 }
  else g

def Pooled.run (g : Pooled β) (es : List (PoolEvent β)) : Pooled β := es.foldl Pooled.step g

/-- The pair is not torn down, and the library has memory. -/
def Pooled.Served (g : Pooled β) (e : PoolEvent β) : Prop :=
  g.pair.status = .drained ∧ e.heap.malloc.isSome ∧ e.heap.memalign.isSome

structure Pooled.Full (g : Pooled β) : Prop where
  client : g.client.Full
  upstream : g.upstream.Full

theorem full_of_opened {client upstream : Pool} (h : Opened client upstream) (p : Relay.Pair β) :
    (Pooled.mk p client upstream).Full := by
  obtain ⟨⟨_, _, _, _, _, hc⟩, _, _, _, _, _, _, _, hu, rfl⟩ := h
  exact ⟨full_connectionInit hc, (full_connectionInit hu).pnalloc⟩

variable {g : Pooled β} {e : PoolEvent β} {es : List (PoolEvent β)}

theorem Pooled.Full.step (hg : g.Full) : (g.step e).Full := by
  unfold Pooled.step
  split
  · simp only
    split
    · exact ⟨hg.client.pnalloc, hg.upstream⟩
    · exact ⟨hg.client, hg.upstream.pnalloc⟩
  · exact hg

/-- An event adds a record to the pool of its side. -/
theorem live_step (hg : g.Full) (hs : g.Served e) :
    (g.step e).client.live = g.client.live + (if e.isClient then 1 else 0) ∧
      (g.step e).upstream.live = g.upstream.live + if e.isClient then 0 else 1 := by
  obtain ⟨hwait, hmalloc, hm⟩ := hs
  simp only [Pooled.step, hwait, ↓reduceIte]
  cases e.isClient with
  | true => exact ⟨live_pnalloc_buf hg.client hmalloc hm, rfl⟩
  | false => exact ⟨rfl, live_pnalloc_buf hg.upstream hmalloc hm⟩

/-- The pools have grown by a record for each event. -/
theorem live_run (hg : g.Full) (h : Along Pooled.step Pooled.Served g es) :
    (g.run es).client.live = g.client.live + es.countP (·.isClient) ∧
      (g.run es).upstream.live = g.upstream.live + es.countP (!·.isClient) := by
  induction es generalizing g with
  | nil => exact ⟨rfl, rfl⟩
  | cons e es ih =>
      obtain ⟨hc, hu⟩ := live_step hg h.1
      obtain ⟨hc', hu'⟩ := ih hg.step h.2
      have hrun : g.run (e :: es) = (g.step e).run es := rfl
      rw [hrun, hc', hu', hc, hu, List.countP_cons, List.countP_cons]
      cases e.isClient with
      | true => exact ⟨by simp only [↓reduceIte]; omega, by simp⟩
      | false => exact ⟨by simp, by simp only [Bool.false_eq_true, ↓reduceIte, Bool.not_false]; omega⟩

/-! ## No bound -/

/-- A pair whose next `a` events on the client side and `b` on the upstream side find no data. -/
structure Idle (a b : Nat) (p : Relay.Pair β) : Prop where
  waits : p.status = .drained
  client : p.toUpstream.ins = List.replicate a .eagain
  upstream : p.toClient.ins = List.replicate b .eagain

theorem Idle.handle (heap : Heap) {e : TcpEvent β} {p : Relay.Pair β} {a b : Nat}
    (h : Idle ((if PoolEvent.isClient ⟨heap, e⟩ then 1 else 0) + a)
      ((if PoolEvent.isClient ⟨heap, e⟩ then 0 else 1) + b) p) : Idle a b (p.handle e) := by
  obtain ⟨hwaits, hclient, hupstream⟩ := h
  cases e with
  | client now buf =>
      simp only [PoolEvent.isClient, ↓reduceIte, Nat.zero_add, Nat.add_comm 1 a,
        List.replicate_succ] at hclient hupstream
      simp only [Relay.Pair.handle, hwaits, ↓reduceIte, epollProcessClientEvent, hclient,
        relayLoop_eagain, Side.handle]
      exact ⟨rfl, rfl, hupstream⟩
  | upstream buf =>
      simp only [PoolEvent.isClient, Bool.false_eq_true, ↓reduceIte, Nat.zero_add, Nat.add_comm 1 b,
        List.replicate_succ] at hclient hupstream
      simp only [Relay.Pair.handle, hwaits, ↓reduceIte, epollProcessUpstreamEvent, hupstream,
        relayLoop_eagain, Side.handle]
      exact ⟨rfl, hclient, rfl⟩

theorem along_idle (hheap : ∀ e ∈ es, e.heap.malloc.isSome ∧ e.heap.memalign.isSome)
    (h : Idle (es.countP (·.isClient)) (es.countP (!·.isClient)) g.pair) :
    Along Pooled.step Pooled.Served g es := by
  induction es generalizing g with
  | nil => trivial
  | cons e es ih =>
      obtain ⟨he, hheap⟩ := List.forall_mem_cons.mp hheap
      refine ⟨⟨h.waits, he⟩, ih hheap ?_⟩
      have hpair : (g.step e).pair = g.pair.handle e.event := by
        simp only [Pooled.step, h.waits, ↓reduceIte]
        split <;> rfl
      rw [hpair]
      apply Idle.handle e.heap
      rw [List.countP_cons, List.countP_cons] at h
      cases hc : e.isClient with
      | true => simpa [hc, Nat.add_comm] using h
      | false => simpa [hc, Nat.add_comm] using h

/-- Event `k` of each side, with new memory. -/
def eventsAt (buf : Nat → β) (k : Nat) : List (PoolEvent β) :=
  let base := 2 ^ 20 * (k + 1)
  [⟨⟨some base, some (base + 2 ^ 17)⟩, .client 0 buf⟩,
    ⟨⟨some (base + 2 ^ 18), some (base + 2 ^ 19)⟩, .upstream buf⟩]

def events (buf : Nat → β) (n : Nat) : List (PoolEvent β) := (List.range n).flatMap (eventsAt buf)

theorem countP_events (buf : Nat → β) (n : Nat) :
    (events buf n).countP (·.isClient) = n ∧ (events buf n).countP (!·.isClient) = n := by
  induction n with
  | zero => exact ⟨rfl, rfl⟩
  | succ n ih =>
      have hsucc : events buf (n + 1) = events buf n ++ eventsAt buf n := by
        simp [events, List.range_succ]
      rw [hsucc, List.countP_append, List.countP_append, ih.1, ih.2]
      exact ⟨rfl, rfl⟩

/-- A pair without data on either side, for `n` events of each. -/
def idlePair (β : Type) (n : Nat) : Relay.Pair β where
  srv := default
  toUpstream := ⟨List.replicate n .eagain, [], [], []⟩
  toClient := ⟨List.replicate n .eagain, [], [], []⟩
  status := .drained

theorem exists_live_gt [Inhabited β] {client upstream : Pool} (h : Opened client upstream) (C : Nat) :
    ∃ (p : Relay.Pair β) (es : List (PoolEvent β)),
      Along Pooled.step Pooled.Served ⟨p, client, upstream⟩ es ∧
        let g := Pooled.run ⟨p, client, upstream⟩ es
        C < g.client.live ∧ C < g.upstream.live := by
  let buf : Nat → β := fun _ => default
  obtain ⟨hclient, hupstream⟩ := countP_events buf (C + 1)
  have hrun : Along Pooled.step Pooled.Served ⟨idlePair β (C + 1), client, upstream⟩
      (events buf (C + 1)) := by
    apply along_idle
    · intro e he
      obtain ⟨k, -, hk⟩ := List.mem_flatMap.mp he
      simp only [eventsAt, List.mem_cons, List.not_mem_nil, or_false] at hk
      rcases hk with rfl | rfl <;> exact ⟨rfl, rfl⟩
    · rw [hclient, hupstream]
      exact ⟨rfl, rfl, rfl⟩
  obtain ⟨hc, hu⟩ := live_run (full_of_opened h _) hrun
  refine ⟨_, _, hrun, ?_, ?_⟩
  · rw [hc, hclient]
    omega
  · rw [hu, hupstream]
    omega

/-- While a pair is open, each of its pools holds a large block for every event of its side; so no
number bounds them. -/
theorem pools_unbounded [Inhabited β] {client upstream : Pool} (h : Opened client upstream) :
    (∀ (p : Relay.Pair β) es, Along Pooled.step Pooled.Served ⟨p, client, upstream⟩ es →
      let g := Pooled.run ⟨p, client, upstream⟩ es
      g.client.live = client.live + es.countP (·.isClient) ∧
        g.upstream.live = upstream.live + es.countP (!·.isClient)) ∧
    ∀ C, ∃ (p : Relay.Pair β) (es : List (PoolEvent β)),
      Along Pooled.step Pooled.Served ⟨p, client, upstream⟩ es ∧
        let g := Pooled.run ⟨p, client, upstream⟩ es
        C < g.client.live ∧ C < g.upstream.live :=
  ⟨fun p _ hrun => live_run (full_of_opened h p) hrun, exists_live_gt h⟩

/-- The pools of a pair on a machine with pages of 4096 bytes. -/
theorem exists_opened : ∃ client upstream, Opened client upstream := by
  have hclient : (connectionInit 4096 ⟨none, some 65536⟩ ⟨none, none⟩ ⟨none, none⟩
      ⟨none, none⟩).isSome := by decide
  have hupstream : (connectionInit 4096 ⟨none, some 131072⟩ ⟨none, none⟩ ⟨none, none⟩
      ⟨none, none⟩).isSome := by decide
  obtain ⟨client, hc⟩ := Option.isSome_iff_exists.mp hclient
  obtain ⟨pool, hu⟩ := Option.isSome_iff_exists.mp hupstream
  exact ⟨client, _, ⟨_, _, _, _, _, hc⟩, _, _, _, _, _, pool, ⟨none, none⟩, hu, rfl⟩

/-- Some run of a new pair has more than 9 buffers on each side. -/
theorem pools_unbounded_nine : ∃ client upstream, Opened client upstream ∧
    ∃ (p : Relay.Pair UInt8) (es : List (PoolEvent UInt8)),
      Along Pooled.step Pooled.Served ⟨p, client, upstream⟩ es ∧
        9 < (Pooled.run ⟨p, client, upstream⟩ es).client.live ∧
          9 < (Pooled.run ⟨p, client, upstream⟩ es).upstream.live := by
  obtain ⟨client, upstream, h⟩ := exists_opened
  exact ⟨client, upstream, h, (pools_unbounded h).2 9⟩

/-- No number bounds the large blocks of all pairs in all runs. -/
theorem pools_not_bounded :
    ¬∃ C, ∀ (client upstream : Pool) (p : Relay.Pair UInt8) (es : List (PoolEvent UInt8)),
      Opened client upstream → Along Pooled.step Pooled.Served ⟨p, client, upstream⟩ es →
        (Pooled.run ⟨p, client, upstream⟩ es).client.live ≤ C ∧
          (Pooled.run ⟨p, client, upstream⟩ es).upstream.live ≤ C := by
  rintro ⟨C, hbound⟩
  obtain ⟨client, upstream, h⟩ := exists_opened
  obtain ⟨p, es, hrun, hgt, -⟩ := exists_live_gt (β := UInt8) h C
  exact absurd (hbound client upstream p es h hrun).1 (not_le.mpr hgt)

end Umicat.Memory
