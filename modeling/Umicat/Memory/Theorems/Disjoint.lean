import Umicat.Base.Run
import Umicat.Memory.Lemmas.Layout

/-!
# Allocations do not overlap

A pool under any sequence of calls, with the regions that the calls returned and that were not freed.
-/

namespace Umicat.Memory

open Umicat.Base

/-! ## Calls -/

/-- An allocation, with what the library returns. -/
inductive Request
  | palloc (size : Nat) (h : Heap)
  | pnalloc (size : Nat) (h : Heap)
  | pcalloc (size : Nat) (h : Heap)
  | pmemalign (size : Nat) (p : Option Nat) (h : Heap)
deriving Repr, DecidableEq

def Request.call (pool : Pool) : Request → Option Nat × Pool
  | .palloc size h => Memory.palloc pool size h
  | .pnalloc size h => Memory.pnalloc pool size h
  | .pcalloc size h => Memory.pcalloc pool size h
  | .pmemalign _ p h => Memory.pmemalign pool p h

def Request.size : Request → Nat
  | .palloc size _ => size
  | .pnalloc size _ => size
  | .pcalloc size _ => size
  | .pmemalign size _ _ => size

/-- What the library returns for a large block. -/
def Request.answer : Request → Option Nat
  | .palloc _ h => h.malloc
  | .pnalloc _ h => h.malloc
  | .pcalloc _ h => h.malloc
  | .pmemalign _ p _ => p

def Request.heap : Request → Heap
  | .palloc _ h => h
  | .pnalloc _ h => h
  | .pcalloc _ h => h
  | .pmemalign _ _ h => h

def Request.isLarge (max : Nat) : Request → Bool
  | .pmemalign _ _ _ => true
  | q => max < q.size

/-- Results that are aligned to 8 bytes. -/
def Request.Aligned : Request → Prop
  | .palloc _ _ => True
  | .pcalloc _ _ => True
  | _ => False

inductive Op
  | request (q : Request)
  | pfree (p : Option Nat)
deriving Repr, DecidableEq

/-- A pool with the results of its allocations: those in its blocks, and those in large blocks that
were not freed. -/
structure Arena where
  pool : Pool
  small : List Region
  large : List Region
deriving Repr, DecidableEq

/-- The result of an allocation is a region of the size asked for. -/
def Arena.allocated (a : Arena) (q : Request) : Option Nat × Pool → Arena
  | (none, pool) => { a with pool := pool }
  | (some m, pool) =>
      if q.isLarge a.pool.max then { a with pool := pool, large := ⟨m, q.size⟩ :: a.large }
      else { a with pool := pool, small := ⟨m, q.size⟩ :: a.small }

def Arena.step (a : Arena) : Op → Arena
  | .request q => a.allocated q (q.call a.pool)
  | .pfree p =>
      let r := pfree a.pool p
      { a with
        pool := r.2
        large := if r.1 then a.large.filter fun r => some r.addr ≠ p else a.large }

/-- The regions that the library gives out, for a large block and for a block of the pool. -/
def Request.given (psize : Nat) (q : Request) : List Region :=
  q.answer.toList.map (⟨·, q.size⟩) ++ q.heap.memalign.toList.map (⟨·, psize⟩)

/-- What the library returns is aligned to 16 bytes and apart from what it has given out. -/
def Arena.FreshFor (a : Arena) (q : Request) : Prop :=
  (∀ r ∈ q.given a.pool.psize, 16 ∣ r.addr) ∧
    (q.given a.pool.psize ++ a.pool.heap a.large).Pairwise Region.Apart

instance Arena.instDecidableFreshFor (a : Arena) (q : Request) : Decidable (a.FreshFor q) :=
  inferInstanceAs (Decidable (_ ∧ _))

def Arena.Fresh (a : Arena) : Op → Prop
  | .request q => a.FreshFor q
  | .pfree _ => True

instance Arena.instDecidableFresh (a : Arena) : (op : Op) → Decidable (a.Fresh op)
  | .request q => inferInstanceAs (Decidable (a.FreshFor q))
  | .pfree _ => inferInstanceAs (Decidable True)

/-! ## The invariant -/

def Arena.Sound (a : Arena) : Prop := a.pool.Laid (a.small ++ a.pool.records) a.large

variable {a : Arena} {q : Request}

theorem Arena.FreshFor.answer (hf : a.FreshFor q) {p : Nat} (hp : q.answer = some p) :
    16 ∣ p ∧ ∀ r ∈ a.pool.heap a.large, Region.Apart ⟨p, q.size⟩ r := by
  obtain ⟨haligned, hapart⟩ := hf
  have hmem : (⟨p, q.size⟩ : Region) ∈ q.given a.pool.psize := by simp [Request.given, hp]
  exact ⟨haligned _ hmem, (List.pairwise_append.mp hapart).2.2 _ hmem⟩

theorem Arena.FreshFor.newBlock (hf : a.FreshFor q) : a.pool.NewBlock a.large q.heap := by
  obtain ⟨haligned, hapart⟩ := hf
  intro base hbase
  have hmem : (⟨base, a.pool.psize⟩ : Region) ∈ q.given a.pool.psize := by
    simp [Request.given, Option.mem_def.mp hbase]
  exact ⟨haligned _ hmem, (List.pairwise_append.mp hapart).2.2 _ hmem⟩

theorem Arena.FreshFor.newBlock_beside (hf : a.FreshFor q) {p : Nat} (hp : q.answer = some p) :
    a.pool.NewBlock (⟨p, q.size⟩ :: a.large) q.heap := by
  intro base hbase
  obtain ⟨haligned, hold⟩ := hf.newBlock base hbase
  refine ⟨haligned, fun r hr => ?_⟩
  rcases List.mem_append.mp hr with hr | hr
  · exact hold r (List.mem_append_left _ hr)
  · rcases List.mem_cons.mp hr with rfl | hr
    · have hgiven := (List.pairwise_append.mp hf.2).1
      simp only [Request.given, hp, Option.mem_def.mp hbase, Option.toList_some, List.map_cons,
        List.map_nil, List.cons_append, List.nil_append, List.pairwise_pair] at hgiven
      exact hgiven.symm
    · exact hold r (List.mem_append_right _ hr)

/-- What a call that allocates can do. -/
inductive Arena.Calls (a : Arena) (q : Request) : Option Nat × Pool → Prop
  | fails : Arena.Calls a q (none, a.pool)
  | small {m : Nat} {pool : Pool} : q.isLarge a.pool.max = false → (q.Aligned → 8 ∣ m) →
      pool.Laid (⟨m, q.size⟩ :: a.small ++ pool.records) a.large → Arena.Calls a q (some m, pool)
  | large {m : Nat} {pool : Pool} : q.isLarge a.pool.max = true → 8 ∣ m → q.answer = some m →
      pool.Laid (a.small ++ pool.records) (⟨m, q.size⟩ :: a.large) → Arena.Calls a q (some m, pool)

theorem Arena.Sound.calls_alloc (hs : a.Sound) (hf : a.FreshFor q) (align : Bool)
    (hlarge : q.isLarge a.pool.max = decide (a.pool.max < q.size))
    (hanswer : q.answer = q.heap.malloc) (halign : q.Aligned → align = true) :
    a.Calls q (if q.size ≤ a.pool.max then pallocSmall a.pool q.size align q.heap
      else pallocLarge a.pool q.heap) := by
  split
  · next hsize =>
      obtain hnone | ⟨m, pool, hsome, hlarge', hlaid, hm⟩ :=
        Pool.Laid.pallocSmall hs hf.newBlock align (hsize.trans hs.max_le)
      · rw [hnone]
        exact .fails
      · rw [hsome]
        refine .small (by simpa [hlarge] using hsize) (fun h => hm (halign h)) ?_
        rw [Pool.records, hlarge']
        exact hlaid
  · next hsize =>
      have hmalloc (p : Nat) (hp : p ∈ q.heap.malloc) :
          (∀ r ∈ a.pool.heap a.large, Region.Apart ⟨p, q.size⟩ r) ∧
            a.pool.NewBlock (⟨p, q.size⟩ :: a.large) q.heap :=
        ⟨(hf.answer (hanswer.trans hp)).2, hf.newBlock_beside (hanswer.trans hp)⟩
      obtain hnone | ⟨m, pool, hp, hsome, hlaid⟩ := Pool.Laid.pallocLarge hs hmalloc
      · rw [hnone]
        exact .fails
      · rw [hsome]
        have hp := hanswer.trans hp
        have h16 := (hf.answer hp).1
        exact .large (by simpa [hlarge] using hsize) (by omega) hp hlaid

theorem Arena.Sound.calls (hs : a.Sound) (hf : a.FreshFor q) : a.Calls q (q.call a.pool) := by
  cases q with
  | palloc size h => exact hs.calls_alloc hf true rfl rfl fun _ => rfl
  | pnalloc size h => exact hs.calls_alloc hf false rfl rfl nofun
  | pcalloc size h => exact hs.calls_alloc hf true rfl rfl fun _ => rfl
  | pmemalign size p h =>
      cases p with
      | none => exact .fails
      | some p =>
          have h16 := (hf.answer rfl).1
          obtain hnone | ⟨pool, hsome, hlaid⟩ :=
            Pool.Laid.pmemalign hs (hf.answer rfl).2 (hf.newBlock_beside rfl)
          · have hcall : Request.call a.pool (.pmemalign size (some p) h) = (none, a.pool) := hnone
            rw [hcall]
            exact .fails
          · have hcall : Request.call a.pool (.pmemalign size (some p) h) = (some p, pool) := hsome
            rw [hcall]
            exact .large rfl (by omega) rfl hlaid

theorem Arena.Calls.sound {r : Option Nat × Pool} (hs : a.Sound) (hc : a.Calls q r) :
    (a.allocated q r).Sound := by
  cases hc with
  | fails => exact hs
  | small hlarge hm hlaid =>
      rw [Arena.allocated, hlarge]
      exact hlaid
  | large hlarge hm hp hlaid =>
      rw [Arena.allocated, hlarge]
      exact hlaid

theorem Arena.Sound.step {op : Op} (hs : a.Sound) (hf : a.Fresh op) : (a.step op).Sound := by
  cases op with
  | request q => exact (hs.calls hf).sound hs
  | pfree p =>
      have hfree := Pool.Laid.pfree hs p
      refine hfree.sublist ?_
      simp only [Arena.step]
      split
      · exact List.filter_sublist
      · exact List.Sublist.refl _

/-! ## What the invariant gives -/

def Pool.headers (pool : Pool) : List Region :=
  pool.blocks.mapIdx fun i b => ⟨b.base, headerSize i⟩

theorem headers_eq (pool : Pool) : pool.headers = pool.zones.map Zone.header := by
  apply List.ext_getElem?
  intro i
  simp only [Pool.headers, Pool.zones, List.getElem?_mapIdx, List.getElem?_map, Option.map_map]
  congr 1
  funext b
  simp [Zone.header, Block.zone]

/-- The results in use lie in their blocks behind the headers, all regions in use are apart, and no
block is filled beyond its end. -/
structure Arena.Separate (a : Arena) : Prop where
  inside : ∀ r ∈ a.small, ∃ (i : Nat) (b : Block), a.pool.blocks[i]? = some b ∧
    b.base + headerSize i ≤ r.addr ∧ r.addr + r.size ≤ b.stop
  apart : (a.small ++ a.large ++ a.pool.headers ++ a.pool.records).Pairwise Region.Apart
  last_le : ∀ b ∈ a.pool.blocks, b.last ≤ b.stop

theorem Arena.Sound.separate (hs : a.Sound) : a.Separate where
  inside := by
    intro r hr
    obtain ⟨z, hz, hholds⟩ := hs.layout.held r (List.mem_append_left _ hr)
    have hlast := (hs.layout.ordered z hz).last_le
    obtain ⟨i, hi⟩ := List.mem_iff_getElem?.mp hz
    rw [Pool.zones, List.getElem?_mapIdx] at hi
    obtain ⟨b, hb, rfl⟩ := Option.map_eq_some_iff.mp hi
    exact ⟨i, b, hb, hholds.1, hholds.2.trans hlast⟩
  apart := by
    have hall := hs.layout.pairwise
    rw [← headers_eq] at hall
    refine List.Perm.pairwise ?_ hall Region.Apart.symm
    -- the records move from behind the small results to the end
    rw [List.append_assoc, List.append_assoc, List.append_assoc]
    refine List.Perm.append_left _ ?_
    refine List.perm_append_comm.trans ?_
    rw [← List.append_assoc]
    exact List.perm_append_comm.append_right _
  last_le := by
    intro b hb
    obtain ⟨i, hi⟩ := List.mem_iff_getElem?.mp hb
    exact (hs.layout.ordered _ (List.mem_of_getElem? (zones_getElem? hi))).last_le

/-- An allocation that does not fail returns a region in a block of the pool, or what the library
returned for a large block of the size asked for. -/
def Arena.Placed (a : Arena) (q : Request) : Prop :=
  ∀ m, (q.call a.pool).1 = some m →
    (⟨m, q.size⟩ ∈ (a.step (.request q)).small ∨
      q.answer = some m ∧ ⟨m, q.size⟩ ∈ (a.step (.request q)).large) ∧
    (q.Aligned → 8 ∣ m)

theorem Arena.Sound.placed (hs : a.Sound) (hf : a.FreshFor q) : a.Placed q := by
  intro m hm
  have hc := hs.calls hf
  have hstep : a.step (.request q) = a.allocated q (q.call a.pool) := rfl
  rw [hstep]
  generalize q.call a.pool = r at hc hm
  cases hc with
  | fails => cases hm
  | small hlarge h8 _ =>
      cases hm
      exact ⟨by simp [Arena.allocated, hlarge], h8⟩
  | large hlarge h8 hp _ =>
      cases hm
      exact ⟨by simp [Arena.allocated, hlarge, hp], fun _ => h8⟩

/-! ## Runs -/

def Arena.start (pool : Pool) : Arena := ⟨pool, [], []⟩

theorem sound_start {pagesize : Nat} {h : Heap} {pool : Pool}
    (hpool : createPool pagesize defaultPoolSize h = some pool)
    (haligned : ∀ p ∈ h.memalign, 16 ∣ p) : (Arena.start pool).Sound := by
  obtain ⟨p, hp, rfl⟩ := Option.map_eq_some_iff.mp hpool
  refine ⟨List.cons_ne_nil _ _, ?_, ?_, ?_, nofun, List.Pairwise.nil, List.pairwise_singleton _ _⟩
  · intro b hb
    rw [List.mem_singleton.mp hb]
    exact ⟨haligned p hp, rfl⟩
  · have hroom : (defaultPoolSize + 2 ^ 64 - sizeofPool) % 2 ^ 64 = defaultPoolSize - sizeofPool := by
      decide
    simp only [Arena.start, hroom]
    split <;> omega
  · intro z hz
    rw [List.mem_singleton.mp hz]
    exact ⟨Nat.le_add_right _ _, le_rfl, Nat.add_le_add_left (by decide) p⟩

/-- What a call does, and what the pool is behind it. -/
def Arena.Good (a : Arena) (op : Op) : Prop :=
  (∀ q, op = .request q → a.Placed q) ∧ (a.step op).Separate

/-- In every sequence of calls on a new pool of the default size, with a library that returns new
regions aligned to 16 bytes: every result lies in a block behind its header or is a large block of the
size asked for, the results in use, the headers and the records are pairwise apart, results of
`uct_palloc` and `uct_pcalloc` are aligned to 8 bytes, and no block is filled beyond its end. -/
theorem allocations_apart {pagesize : Nat} {h : Heap} {pool : Pool}
    (hpool : createPool pagesize defaultPoolSize h = some pool)
    (haligned : ∀ p ∈ h.memalign, 16 ∣ p) {ops : List Op}
    (hfresh : Along Arena.step Arena.Fresh (Arena.start pool) ops) :
    Along Arena.step Arena.Good (Arena.start pool) ops := by
  refine hfresh.of_invariant (fun _ _ => Arena.Sound.step) ?_ (sound_start hpool haligned)
  intro a op hs hf
  refine ⟨fun q hq => ?_, (hs.step hf).separate⟩
  subst hq
  exact hs.placed hf

/-- Small and large results, a large block that is freed and given out again, and a second block. -/
theorem allocations_apart_two_blocks :
    let ops : List Op := [.request (.palloc 10 ⟨none, none⟩), .request (.pnalloc 3 ⟨none, none⟩),
      .request (.palloc 5000 ⟨some 131072, none⟩), .pfree (some 131072),
      .request (.pmemalign 64 (some 131072) ⟨none, none⟩),
      .request (.pcalloc 4000 ⟨none, none⟩), .request (.pcalloc 4000 ⟨none, none⟩),
      .request (.pcalloc 4000 ⟨none, none⟩), .request (.pcalloc 4000 ⟨none, none⟩),
      .request (.pcalloc 4000 ⟨none, some 262144⟩)]
    let pool : Pool := ⟨[⟨65536, 65616, 81920, 0⟩], 4095, 0, []⟩
    createPool 4096 defaultPoolSize ⟨none, some 65536⟩ = some pool ∧
      Along Arena.step Arena.Good (Arena.start pool) ops ∧
      (ops.foldl Arena.step (Arena.start pool)).pool.blocks.length = 2 := by
  intro ops pool
  have hpool : createPool 4096 defaultPoolSize ⟨none, some 65536⟩ = some pool := by decide
  have hfresh : Along Arena.step Arena.Fresh (Arena.start pool) ops := by decide +kernel
  exact ⟨hpool, allocations_apart hpool (by decide) hfresh, by decide +kernel⟩

end Umicat.Memory
