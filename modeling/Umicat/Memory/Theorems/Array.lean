import Umicat.Memory.Lemmas.Live

/-!
# Arrays grow without losing or sharing elements

A pool with arrays and other allocations, under any sequence of allocations and pushes. A push that is
short of room takes the space behind the array or moves it, and both agree with what the pool counts
as given out, as long as the sizes that are asked for do not wrap.
-/

namespace Umicat.Memory

open Umicat.Base

/-! ## What a push can do -/

/-- The `nalloc * size` bytes at `elts`. -/
def Arr.region (a : Arr) : Region := ⟨a.elts, a.size * a.nalloc⟩

structure Arr.Wf (a : Arr) : Prop where
  size_pos : 1 ≤ a.size
  nalloc_pos : 1 ≤ a.nalloc
  nelts_le : a.nelts ≤ a.nalloc

/-- A push fails and changes nothing, or the array has room for the new elements, where it was or at
a new place that its elements are copied to. -/
inductive Pushes (a : Arr) (n : Nat) (pool : Pool) (rest : List Region) : Pushed → Prop
  | failed : Pushes a n pool rest ⟨none, a, pool, 0⟩
  | done {elts nalloc copied : Nat} {pool' : Pool} : a.nelts + n ≤ nalloc → a.nalloc ≤ nalloc →
      pool'.Live (⟨elts, a.size * nalloc⟩ :: rest) →
      (elts = a.elts ∧ copied = 0 ∨ a.size * a.nelts ≤ copied ∧ copied ≤ a.size * nalloc) →
      Pushes a n pool rest
        ⟨some (elts + a.size * a.nelts), ⟨elts, a.nelts + n, a.size, nalloc⟩, pool', copied⟩

variable {pool pool' : Pool} {rest : List Region} {a : Arr} {n : Nat} {h : Heap} {r : Pushed}

theorem word_of_lt {k : Nat} (hk : k < 2 ^ 64) : word k = k := Nat.mod_eq_of_lt hk

/-- With room for the new elements, no sum at the end of a push wraps. -/
theorem Pushes.take {elts nalloc copied : Nat} (hw : a.Wf) (hle : a.nelts + n ≤ nalloc)
    (hge : a.nalloc ≤ nalloc) (hl : pool'.Live (⟨elts, a.size * nalloc⟩ :: rest))
    (hcopied : elts = a.elts ∧ copied = 0 ∨ a.size * a.nelts ≤ copied ∧ copied ≤ a.size * nalloc) :
    Pushes a n pool rest (Arr.take { a with elts := elts, nalloc := nalloc } n pool' copied) := by
  have hlow := hl.low List.mem_cons_self
  simp only at hlow
  have hnalloc : nalloc ≤ a.size * nalloc := Nat.le_mul_of_pos_left _ hw.size_pos
  have helts : a.size * a.nelts ≤ a.size * nalloc := Nat.mul_le_mul_left _ (by omega)
  simp only [Arr.take]
  rw [word_of_lt (show a.size * a.nelts < 2 ^ 64 by omega), word_of_lt (by omega),
    word_of_lt (by omega)]
  exact .done hle hge hl hcopied

theorem Pushes.kept (hw : a.Wf) (hl : pool.Live (a.region :: rest)) (hle : a.nelts + n ≤ a.nalloc) :
    Pushes a n pool rest (a.take n pool 0) :=
  .take hw hle le_rfl hl (Or.inl ⟨rfl, rfl⟩)

theorem Pushes.inPlace (hw : a.Wf) (hl : pool.Live (a.region :: rest))
    (hend : a.elts + a.size * a.nalloc = pool.d.last) (hroom : pool.d.last + n * a.size ≤ pool.d.stop) :
    Pushes a n pool rest
      (Arr.take { a with nalloc := a.nalloc + n } n (pool.advance (n * a.size)) 0) := by
  have hle := hw.nelts_le
  have hextend := hl.extend hend (Nat.mul_pos hw.size_pos hw.nalloc_pos) hroom
  have hsize : a.size * a.nalloc + n * a.size = a.size * (a.nalloc + n) := by
    rw [Nat.mul_add, Nat.mul_comm n]
  simp only [Arr.region, hsize] at hextend
  exact .take hw (by omega) (by omega) hextend (Or.inl ⟨rfl, rfl⟩)

/-- The allocation of a push that moves the array. -/
theorem Pushes.moved {nalloc copied : Nat} (hw : a.Wf) (hl : pool.Live (a.region :: rest))
    (hf : pool.Fresh (a.region :: rest) (.palloc (a.size * nalloc) h)) (hle : a.nelts + n ≤ nalloc)
    (hge : a.nalloc ≤ nalloc) (hlo : a.size * a.nelts ≤ copied) (hhi : copied ≤ a.size * a.nalloc) :
    palloc pool (a.size * nalloc) h = (none, pool) ∨
      ∃ new pool', palloc pool (a.size * nalloc) h = (some new, pool') ∧
        Pushes a n pool rest (Arr.take { a with elts := new, nalloc := nalloc } n pool' copied) := by
  obtain hnone | ⟨new, pool', hsome, hlive⟩ := hl.call hf
  · exact Or.inl hnone
  · have htail := (hlive.perm (List.Perm.swap _ _ _)).tail
    have hcopied : copied ≤ a.size * nalloc := hhi.trans (Nat.mul_le_mul_left _ hge)
    exact Or.inr ⟨new, pool', hsome, .take hw hle hge htail (Or.inr ⟨hlo, hcopied⟩)⟩

/-- Bytes of the allocation that `uct_array_push` asks for. -/
def Arr.pushSize (a : Arr) : Nat := word (2 * word (a.size * a.nalloc))

/-- Bytes of the allocation that `uct_array_push_n` asks for. -/
def Arr.pushNSize (a : Arr) (n : Nat) : Nat :=
  word (word (2 * if n ≥ a.nalloc then n else a.nalloc) * a.size)

theorem Arr.pushSize_eq (h : a.elts + a.size * a.nalloc < 2 ^ 63) :
    a.pushSize = a.size * (a.nalloc * 2) := by
  rw [Arr.pushSize, word_of_lt (show a.size * a.nalloc < 2 ^ 64 by omega), word_of_lt (by omega),
    Nat.mul_comm 2, Nat.mul_assoc]

/-- Twice the larger one of `n` and `nalloc`, and the bytes of as many elements. -/
theorem Arr.pushNSize_eq (hsize : 1 ≤ a.size) (h : a.elts + a.size * a.nalloc < 2 ^ 63)
    (hn : 2 * (n * a.size) < 2 ^ 64) :
    word (2 * if n ≥ a.nalloc then n else a.nalloc) = 2 * max n a.nalloc ∧
      a.pushNSize n = a.size * (2 * max n a.nalloc) := by
  have hmax : (if n ≥ a.nalloc then n else a.nalloc) = max n a.nalloc := by
    split <;> omega
  have hbytes : a.size * (2 * max n a.nalloc) < 2 ^ 64 := by
    rw [Nat.mul_left_comm, ← Nat.mul_max_mul_left, Nat.mul_comm a.size n]
    omega
  have hle : 2 * max n a.nalloc ≤ a.size * (2 * max n a.nalloc) := Nat.le_mul_of_pos_left _ hsize
  have hword : word (2 * max n a.nalloc) = 2 * max n a.nalloc := word_of_lt (by omega)
  refine ⟨hmax ▸ hword, ?_⟩
  rw [Arr.pushNSize, hmax, hword, Nat.mul_comm, word_of_lt hbytes]

theorem arrayPush_pushes (hw : a.Wf) (hl : pool.Live (a.region :: rest))
    (hf : pool.Fresh (a.region :: rest) (.palloc a.pushSize h)) :
    Pushes a 1 pool rest (arrayPush a pool h) := by
  have hlow := hl.low List.mem_cons_self
  obtain ⟨hlast, hstop⟩ := hl.d_lt
  have hsize := hw.size_pos
  have hnalloc := hw.nalloc_pos
  have hnelts := hw.nelts_le
  simp only [Arr.region] at hlow
  have hle : a.size ≤ a.size * a.nalloc := Nat.le_mul_of_pos_right _ hnalloc
  have hle' : a.nalloc ≤ a.size * a.nalloc := Nat.le_mul_of_pos_left _ hsize
  have hbytes : word (a.size * a.nalloc) = a.size * a.nalloc := word_of_lt (by omega)
  have hpush := Arr.pushSize_eq hlow
  unfold arrayPush
  split
  · next hfull =>
      simp only [hbytes]
      rw [word_of_lt (show a.elts + a.size * a.nalloc < 2 ^ 64 by omega),
        word_of_lt (show pool.d.last + a.size < 2 ^ 64 by omega),
        word_of_lt (show a.nalloc + 1 < 2 ^ 64 by omega),
        word_of_lt (show a.nalloc * 2 < 2 ^ 64 by omega)]
      split
      · next hlast =>
          have := Pushes.inPlace (n := 1) hw hl hlast.1 (by omega)
          rwa [Nat.one_mul] at this
      · have hcall : word (2 * (a.size * a.nalloc)) = a.size * (a.nalloc * 2) := by
          rw [← hpush, Arr.pushSize, hbytes]
        rw [hcall]
        rw [hpush] at hf
        obtain hnone | ⟨new, pool', hsome, hpushes⟩ :=
          Pushes.moved (n := 1) hw hl hf (by omega) (by omega)
            (Nat.mul_le_mul_left a.size hnelts) le_rfl
        · rw [hnone]
          exact .failed
        · rw [hsome]
          exact hpushes
  · exact .kept hw hl (by omega)

/-- A push of several elements, whose bytes are at most half of what a size can hold. -/
theorem arrayPushN_pushes (hw : a.Wf) (hl : pool.Live (a.region :: rest)) (hn : 2 * (n * a.size) < 2 ^ 64)
    (hf : pool.Fresh (a.region :: rest) (.palloc (a.pushNSize n) h)) :
    Pushes a n pool rest (arrayPushN a n pool h) := by
  have hlow := hl.low List.mem_cons_self
  obtain ⟨hlast, hstop⟩ := hl.d_lt
  have hsize := hw.size_pos
  have hnalloc := hw.nalloc_pos
  have hnelts := hw.nelts_le
  simp only [Arr.region] at hlow
  have hle : a.nalloc ≤ a.size * a.nalloc := Nat.le_mul_of_pos_left _ hsize
  have hle' : n ≤ n * a.size := Nat.le_mul_of_pos_right _ hsize
  have helts : a.nelts * a.size ≤ a.size * a.nalloc := by
    rw [Nat.mul_comm]
    exact Nat.mul_le_mul_left _ hnelts
  obtain ⟨hmax, hpush⟩ := Arr.pushNSize_eq hsize hlow hn
  simp only [arrayPushN]
  rw [word_of_lt (show n * a.size < 2 ^ 64 by omega), word_of_lt (show a.nelts + n < 2 ^ 64 by omega)]
  split
  · next hfull =>
      rw [word_of_lt (show a.size * a.nalloc < 2 ^ 64 by omega),
        word_of_lt (show a.elts + a.size * a.nalloc < 2 ^ 64 by omega),
        word_of_lt (show pool.d.last + n * a.size < 2 ^ 64 by omega),
        word_of_lt (show a.nalloc + n < 2 ^ 64 by omega)]
      split
      · next hlast => exact .inPlace hw hl hlast.1 hlast.2
      · have hcall : word (2 * max n a.nalloc * a.size) = a.size * (2 * max n a.nalloc) := by
          rw [← hpush, Arr.pushNSize, hmax]
        rw [hmax, hcall, word_of_lt (show a.nelts * a.size < 2 ^ 64 by omega)]
        rw [hpush] at hf
        obtain hnone | ⟨new, pool', hsome, hpushes⟩ :=
          Pushes.moved (n := n) hw hl hf (by omega) (by omega)
            (Nat.mul_comm a.size a.nelts).le helts
        · rw [hnone]
          exact .failed
        · rw [hsome]
          exact hpushes
  · exact .kept hw hl (by omega)

/-! ## What a push leaves of the memory -/

theorem Pushes.wf (hp : Pushes a n pool rest r) (hw : a.Wf) : r.arr.Wf := by
  cases hp with
  | failed => exact hw
  | done hle hge hl hcopied => exact ⟨hw.size_pos, hw.nalloc_pos.trans hge, hle⟩

theorem Pushes.live (hp : Pushes a n pool rest r) (hl : pool.Live (a.region :: rest)) :
    r.pool.Live (r.arr.region :: rest) := by
  cases hp with
  | failed => exact hl
  | done hle hge hl hcopied => exact hl

/-- The elements that were in use are where the array is now. -/
theorem Pushes.memory_elts (hp : Pushes a n pool rest r) (mem : Nat → UInt8) {k : Nat}
    (hk : k < a.size * a.nelts) : r.memory a mem (r.arr.elts + k) = mem (a.elts + k) := by
  cases hp with
  | failed => simp [Pushed.memory]
  | @done elts nalloc copied pool' hle hge hl hcopied =>
      rcases hcopied with ⟨rfl, rfl⟩ | ⟨hlo, -⟩
      · simp [Pushed.memory]
      · have hlt : k < copied := hk.trans_le hlo
        simp [Pushed.memory, store_add, load, hlt]

theorem Pushes.memory_of_not_has (hp : Pushes a n pool rest r) (mem : Nat → UInt8) {x : Nat}
    (hx : ¬ r.arr.region.Has x) : r.memory a mem x = mem x := by
  cases hp with
  | failed => simp [Pushed.memory]
  | @done elts nalloc copied pool' hle hge hl hcopied =>
      rcases hcopied with ⟨rfl, rfl⟩ | ⟨-, hhi⟩
      · simp [Pushed.memory]
      · simp only [Arr.region, Region.Has] at hx
        rcases Nat.lt_or_ge x elts with hlt | hge
        · exact store_of_lt _ _ hlt
        · exact store_of_le _ _ (by simp only [length_load]; omega)

/-! ## Runs -/

/-- A pool with arrays and the results of other allocations from it, the `uct_array_t` of the arrays
among them. -/
structure Arrays where
  pool : Pool
  arrays : List Arr
  other : List Region
deriving Repr, DecidableEq

def Arrays.live (s : Arrays) : List Region := s.arrays.map Arr.region ++ s.other

inductive ArrayOp
  | request (q : Request)
  | create (n size : Nat) (h h' : Heap)
  | push (i : Nat) (h : Heap)
  | pushN (i n : Nat) (h : Heap)
deriving Repr, DecidableEq

def Arrays.pushed (s : Arrays) (i : Nat) (r : Pushed) : Arrays :=
  ⟨r.pool, s.arrays.set i r.arr, s.other⟩

def Arrays.step (s : Arrays) : ArrayOp → Arrays
  | .request q =>
      match q.call s.pool with
      | (none, pool) => { s with pool := pool }
      | (some m, pool) => ⟨pool, s.arrays, ⟨m, q.size⟩ :: s.other⟩
  | .create n size h h' =>
      match arrayCreate s.pool n size h h' with
      | (none, pool) => { s with pool := pool }
      | (some (m, a), pool) => ⟨pool, s.arrays ++ [a], ⟨m, sizeofArray⟩ :: s.other⟩
  | .push i h =>
      match s.arrays[i]? with
      | some a => s.pushed i (arrayPush a s.pool h)
      | none => s
  | .pushN i n h =>
      match s.arrays[i]? with
      | some a => s.pushed i (arrayPushN a n s.pool h)
      | none => s

/-- Arrays are made for at least one element of at least one byte, and what the library returns is
new. -/
def Arrays.Admits (s : Arrays) : ArrayOp → Prop
  | .request q => s.pool.Fresh s.live q
  | .create n size h h' => 1 ≤ n ∧ 1 ≤ size ∧ s.pool.Fresh s.live (.palloc sizeofArray h) ∧
      ∀ m ∈ (palloc s.pool sizeofArray h).1, (palloc s.pool sizeofArray h).2.Fresh
        (⟨m, sizeofArray⟩ :: s.live) (.palloc (word (n * size)) h')
  | .push i h => ∀ a ∈ s.arrays[i]?, s.pool.Fresh s.live (.palloc a.pushSize h)
  | .pushN i n h => ∀ a ∈ s.arrays[i]?, s.pool.Fresh s.live (.palloc (a.pushNSize n) h)

/-- The sizes that are asked for do not wrap. -/
def Arrays.Fits (s : Arrays) : ArrayOp → Prop
  | .create n size _ _ => n * size < 2 ^ 64
  | .pushN i n _ => ∀ a ∈ s.arrays[i]?, 2 * (n * a.size) < 2 ^ 64
  | _ => True

instance Arrays.instDecidableAdmits (s : Arrays) : (op : ArrayOp) → Decidable (s.Admits op)
  | .request q => inferInstanceAs (Decidable (s.pool.Fresh s.live q))
  | .create _ _ _ _ => inferInstanceAs (Decidable (_ ∧ _))
  | .push i _ => inferInstanceAs (Decidable (∀ a ∈ s.arrays[i]?, _))
  | .pushN i _ _ => inferInstanceAs (Decidable (∀ a ∈ s.arrays[i]?, _))

instance Arrays.instDecidableFits (s : Arrays) : (op : ArrayOp) → Decidable (s.Fits op)
  | .request _ => inferInstanceAs (Decidable True)
  | .create n size _ _ => inferInstanceAs (Decidable (n * size < 2 ^ 64))
  | .push _ _ => inferInstanceAs (Decidable True)
  | .pushN i n _ => inferInstanceAs (Decidable (∀ a ∈ s.arrays[i]?, 2 * (n * a.size) < 2 ^ 64))

/-! ## The invariant -/

structure Arrays.Sound (s : Arrays) : Prop where
  live : s.pool.Live s.live
  wf : ∀ a ∈ s.arrays, a.Wf

variable {s : Arrays} {i : Nat}

/-- What is live beside array `i`. -/
def Arrays.beside (s : Arrays) (i : Nat) : List Region :=
  (s.arrays.eraseIdx i).map Arr.region ++ s.other

theorem Arrays.live_perm (hi : s.arrays[i]? = some a) :
    (a.region :: s.beside i).Perm s.live := by
  obtain ⟨hlt, rfl⟩ := List.getElem?_eq_some_iff.mp hi
  have hperm := (List.getElem_cons_eraseIdx_perm hlt).map Arr.region
  exact hperm.append_right s.other

theorem Arrays.live_pushed_perm (hi : s.arrays[i]? = some a) :
    (r.arr.region :: s.beside i).Perm (s.pushed i r).live := by
  obtain ⟨hlt, -⟩ := List.getElem?_eq_some_iff.mp hi
  have hset : (s.pushed i r).arrays[i]? = some r.arr := List.getElem?_set_self hlt
  have hbeside : (s.pushed i r).beside i = s.beside i := by
    simp [Arrays.beside, Arrays.pushed, List.eraseIdx_set_eq]
  exact hbeside ▸ Arrays.live_perm hset

theorem Arrays.Sound.pushed (hs : s.Sound) (hi : s.arrays[i]? = some a)
    (hp : Pushes a n s.pool (s.beside i) r) : (s.pushed i r).Sound where
  live := (hp.live (hs.live.perm (Arrays.live_perm hi))).perm (Arrays.live_pushed_perm hi).symm
  wf := by
    intro b hb
    rcases List.mem_or_eq_of_mem_set hb with hb | rfl
    · exact hs.wf b hb
    · exact hp.wf (hs.wf a (List.mem_of_getElem? hi))

theorem Pool.Fresh.perm {live live' : List Region} {q : Request} (hf : pool.Fresh live q)
    (hp : live'.Perm live) : pool.Fresh live' q := by
  refine ⟨fun r hr => ?_, hf.2⟩
  obtain ⟨haligned, hlow, hapart⟩ := hf.1 r hr
  exact ⟨haligned, hlow, fun r' hr' => hapart r' ((hp.append_left _).mem_iff.mp hr')⟩

theorem Arrays.Sound.push (hs : s.Sound) (hi : s.arrays[i]? = some a)
    (hf : s.pool.Fresh s.live (.palloc a.pushSize h)) :
    Pushes a 1 s.pool (s.beside i) (arrayPush a s.pool h) :=
  arrayPush_pushes (hs.wf a (List.mem_of_getElem? hi)) (hs.live.perm (Arrays.live_perm hi))
    (hf.perm (Arrays.live_perm hi))

theorem Arrays.Sound.pushN (hs : s.Sound) (hi : s.arrays[i]? = some a)
    (hf : s.pool.Fresh s.live (.palloc (a.pushNSize n) h)) (hn : 2 * (n * a.size) < 2 ^ 64) :
    Pushes a n s.pool (s.beside i) (arrayPushN a n s.pool h) :=
  arrayPushN_pushes (hs.wf a (List.mem_of_getElem? hi)) (hs.live.perm (Arrays.live_perm hi)) hn
    (hf.perm (Arrays.live_perm hi))

theorem Arrays.Sound.request {q : Request} (hs : s.Sound) (hf : s.pool.Fresh s.live q) :
    (s.step (.request q)).Sound := by
  obtain hnone | ⟨m, pool, hsome, hlive⟩ := hs.live.call hf
  · simp only [Arrays.step, hnone]
    exact hs
  · simp only [Arrays.step, hsome]
    exact ⟨hlive.perm List.perm_middle, hs.wf⟩

/-- The two allocations of a new array. -/
theorem Arrays.Sound.create {size : Nat} {h' : Heap} (hs : s.Sound)
    (ha : s.Admits (.create n size h h')) (hn : n * size < 2 ^ 64) :
    (s.step (.create n size h h')).Sound := by
  obtain ⟨hpos, hsize, hf, hf'⟩ := ha
  simp only [Arrays.step, arrayCreate]
  obtain hnone | ⟨m, pool, hsome, hlive⟩ := hs.live.call hf
  · have hcall : palloc s.pool sizeofArray h = (none, s.pool) := hnone
    rw [hcall]
    exact hs
  · have hcall : palloc s.pool sizeofArray h = (some m, pool) := hsome
    rw [hcall] at hf' ⊢
    have hf' := hf' m rfl
    simp only [arrayInit]
    rw [word_of_lt hn] at hf' ⊢
    obtain hnone' | ⟨elts, pool', hsome', hlive'⟩ := hlive.call hf'
    · have hcall' : palloc pool (n * size) h' = (none, pool) := hnone'
      rw [hcall']
      exact ⟨hlive.tail, hs.wf⟩
    · have hcall' : palloc pool (n * size) h' = (some elts, pool') := hsome'
      rw [hcall']
      refine ⟨hlive'.perm ?_, ?_⟩
      · have hregion : (⟨elts, size * n⟩ : Region) = ⟨elts, n * size⟩ := by rw [Nat.mul_comm]
        simp only [Arrays.live, List.map_append, List.map_cons, List.map_nil, Arr.region, hregion,
          List.append_assoc, List.cons_append, List.nil_append]
        exact List.perm_middle.trans (List.perm_middle.cons _)
      · intro a ha
        rcases List.mem_append.mp ha with ha | ha
        · exact hs.wf a ha
        · rw [List.mem_singleton.mp ha]
          exact ⟨hsize, hpos, Nat.zero_le n⟩

theorem Arrays.Sound.step {op : ArrayOp} (hs : s.Sound) (ha : s.Admits op) (hf : s.Fits op) :
    (s.step op).Sound := by
  cases op with
  | request q => exact hs.request ha
  | create n size h h' => exact hs.create ha hf
  | push i h =>
      cases hi : s.arrays[i]? with
      | none => simpa only [Arrays.step, hi] using hs
      | some a => simpa only [Arrays.step, hi] using hs.pushed hi (hs.push hi (ha a hi))
  | pushN i n h =>
      cases hi : s.arrays[i]? with
      | none => simpa only [Arrays.step, hi] using hs
      | some a => simpa only [Arrays.step, hi] using hs.pushed hi (hs.pushN hi (ha a hi) (hf a hi))

/-! ## What the invariant gives -/

/-- A push of `n` elements on array `i`: without a result, the array is as it was; else the result is
the place of the next `n` elements. Whatever the code writes to the `uct_array_t`, the headers and the
records, all arrays keep the bytes of their elements. -/
structure Arrays.Slots (s : Arrays) (i n : Nat) (a : Arr) (r : Pushed) : Prop where
  null : r.elt = none → r.arr = a ∧ r.copied = 0
  next : ∀ p, r.elt = some p → p = r.arr.elts + a.size * a.nelts ∧ r.arr.size = a.size ∧
    r.arr.nelts = a.nelts + n
  kept : ∀ mem mem' : Nat → UInt8,
    (∀ x, (∀ q ∈ s.other ++ r.pool.headers ++ r.pool.records, ¬ q.Has x) →
      mem' x = r.memory a mem x) →
    ∀ (j : Nat) (b b' : Arr), s.arrays[j]? = some b → (s.pushed i r).arrays[j]? = some b' →
      load mem' b'.elts (b.size * b.nelts) = load mem b.elts (b.size * b.nelts)

/-- The elements of arrays are apart from each other and from all else that is in use. -/
structure Arrays.Separate (s : Arrays) : Prop where
  nelts_le : ∀ a ∈ s.arrays, a.nelts ≤ a.nalloc
  apart : (s.live ++ s.pool.headers ++ s.pool.records).Pairwise Region.Apart

theorem Arrays.Sound.separate (hs : s.Sound) : s.Separate :=
  ⟨fun a ha => (hs.wf a ha).nelts_le, hs.live.pairwise⟩

/-- No bookkeeping is in the elements of an array. -/
theorem Arrays.Sound.not_has (hs : s.Sound) {x : Nat} (ha : a ∈ s.arrays) (hx : a.region.Has x) :
    ∀ q ∈ s.other ++ s.pool.headers ++ s.pool.records, ¬ q.Has x := by
  have hapart := hs.live.pairwise
  rw [Arrays.live, List.append_assoc, List.append_assoc, ← List.append_assoc s.other] at hapart
  intro q hq
  exact (List.pairwise_append.mp hapart).2.2 _ (List.mem_map_of_mem ha) q hq x hx

theorem Arr.Wf.has (hw : a.Wf) {k : Nat} (hk : k < a.size * a.nelts) : a.region.Has (a.elts + k) := by
  have hle : a.size * a.nelts ≤ a.size * a.nalloc := Nat.mul_le_mul_left _ hw.nelts_le
  simp only [Arr.region, Region.Has]
  omega

theorem Pushes.has (hp : Pushes a n pool rest r) (hw : a.Wf) {k : Nat} (hk : k < a.size * a.nelts) :
    r.arr.region.Has (r.arr.elts + k) := by
  cases hp with
  | failed => exact hw.has hk
  | @done elts nalloc copied pool' hle hge hl hcopied =>
      have hsize : a.size * a.nelts ≤ a.size * nalloc := Nat.mul_le_mul_left _ (by omega)
      simp only [Arr.region, Region.Has]
      omega

theorem Arrays.Sound.slots (hs : s.Sound) (hi : s.arrays[i]? = some a)
    (hp : Pushes a n s.pool (s.beside i) r) : s.Slots i n a r where
  null := by
    intro hnone
    cases hp with
    | failed => exact ⟨rfl, rfl⟩
    | done => cases hnone
  next := by
    intro p hsome
    cases hp with
    | failed => cases hsome
    | done =>
        cases hsome
        exact ⟨rfl, rfl, rfl⟩
  kept := by
    intro mem mem' hmem j b b' hb hb'
    have hpushed := hs.pushed hi hp
    have hin (x : Nat) (hx : b'.region.Has x) : mem' x = r.memory a mem x :=
      hmem x (hpushed.not_has (List.mem_of_getElem? hb') hx)
    by_cases hij : i = j
    · -- the array itself, which may have moved
      subst hij
      cases hi.symm.trans hb
      have hlt := (List.getElem?_eq_some_iff.mp hi).1
      cases (List.getElem?_set_self hlt).symm.trans hb'
      refine load_congr fun k hk => ?_
      rw [hin _ (hp.has (hs.wf a (List.mem_of_getElem? hi)) hk), hp.memory_elts mem hk]
    · -- another array, which the copy does not touch
      have hsame : (s.arrays.set i r.arr)[j]? = s.arrays[j]? := List.getElem?_set_ne hij
      cases (hsame.trans hb).symm.trans hb'
      have hwf := hs.wf b (List.mem_of_getElem? hb)
      have hbeside : b.region ∈ s.beside i := List.mem_append_left _ (List.mem_map_of_mem
        (List.mem_eraseIdx_iff_getElem?.mpr ⟨j, Ne.symm hij, hb⟩))
      have hlive := hp.live (hs.live.perm (Arrays.live_perm hi))
      have hapart := (List.pairwise_append.mp (List.pairwise_append.mp hlive.pairwise).1).1
      have hnew := (List.pairwise_cons.mp hapart).1 _ hbeside
      refine load_congr fun k hk => ?_
      have hx := hwf.has hk
      rw [hin _ hx, hp.memory_of_not_has mem (fun hx' => hnew _ hx' hx)]

/-- What a step returns, and what the arrays are behind it. -/
def Arrays.Good (s : Arrays) (op : ArrayOp) : Prop :=
  (∀ i h a, op = .push i h → s.arrays[i]? = some a → s.Slots i 1 a (arrayPush a s.pool h)) ∧
  (∀ i n h a, op = .pushN i n h → s.arrays[i]? = some a → s.Slots i n a (arrayPushN a n s.pool h)) ∧
  (s.step op).Separate

def Arrays.start (pool : Pool) : Arrays := ⟨pool, [], []⟩

theorem arrays_sound_start {pagesize : Nat} (hpool : createPool pagesize defaultPoolSize h = some pool)
    (hbase : ∀ p ∈ h.memalign, 16 ∣ p ∧ p + defaultPoolSize < 2 ^ 63) :
    (Arrays.start pool).Sound := by
  have hs := sound_start hpool fun p hp => (hbase p hp).1
  obtain ⟨p, hp, rfl⟩ := Option.map_eq_some_iff.mp hpool
  refine ⟨⟨[], [], hs, ?_, nofun, List.Perm.refl _⟩, nofun⟩
  intro b hb
  rw [List.mem_singleton.mp hb]
  exact (hbase p hp).2

/-- In every sequence of allocations, new arrays and pushes on a new pool of the default size, with a
library that returns new regions in the lower half of the address space: if no size that is asked for
wraps, arrays have room for their elements, each push returns the place of the next elements or
changes nothing, no push changes the bytes of earlier elements, and the elements of an array are apart
from all else that is in use. -/
theorem arrays_grow {pagesize : Nat} (hpool : createPool pagesize defaultPoolSize h = some pool)
    (hbase : ∀ p ∈ h.memalign, 16 ∣ p ∧ p + defaultPoolSize < 2 ^ 63) {ops : List ArrayOp}
    (hops : Along Arrays.step (fun s op => s.Admits op ∧ s.Fits op) (Arrays.start pool) ops) :
    Along Arrays.step Arrays.Good (Arrays.start pool) ops := by
  refine hops.of_invariant (fun s op hs hop => Arrays.Sound.step hs hop.1 hop.2) ?_
    (arrays_sound_start hpool hbase)
  rintro s op hs ⟨ha, hf⟩
  refine ⟨?_, ?_, (hs.step ha hf).separate⟩
  · rintro i h a rfl hi
    exact hs.slots hi (hs.push hi (ha a hi))
  · rintro i n h a rfl hi
    exact hs.slots hi (hs.pushN hi (ha a hi) (hf a hi))

/-- An array grows in place, moves within the pool, fails to grow and moves to a large block, with
another array and another allocation beside it. -/
theorem arrays_grow_moved :
    let ops : List ArrayOp := [.create 2 16 ⟨none, none⟩ ⟨none, none⟩, .push 0 ⟨none, none⟩,
      .pushN 0 2 ⟨none, none⟩, .request (.palloc 10 ⟨none, none⟩), .push 0 ⟨none, none⟩,
      .push 0 ⟨none, none⟩, .create 1 8 ⟨none, none⟩ ⟨none, none⟩, .push 1 ⟨none, none⟩,
      .push 1 ⟨none, none⟩, .pushN 0 300 ⟨none, none⟩, .pushN 0 300 ⟨some 131072, none⟩]
    let pool : Pool := ⟨[⟨65536, 65616, 81920, 0⟩], 4095, 0, []⟩
    createPool 4096 defaultPoolSize ⟨none, some 65536⟩ = some pool ∧
      Along Arrays.step Arrays.Good (Arrays.start pool) ops ∧
      (ops.foldl Arrays.step (Arrays.start pool)).arrays =
        [⟨131072, 305, 16, 600⟩, ⟨65904, 2, 8, 2⟩] := by
  intro ops pool
  have hpool : createPool 4096 defaultPoolSize ⟨none, some 65536⟩ = some pool := by decide
  have hops : Along Arrays.step (fun s op => s.Admits op ∧ s.Fits op) (Arrays.start pool) ops := by
    decide +kernel
  exact ⟨hpool, arrays_grow hpool (by decide) hops, by decide +kernel⟩

/-- `n * size` wraps to 0: the array gets no bytes, and the next allocation begins at its first
element. -/
theorem arrays_shared_wrap :
    let ops : List ArrayOp :=
      [.create (2 ^ 63) 2 ⟨none, none⟩ ⟨none, none⟩, .request (.palloc 16 ⟨none, none⟩)]
    let pool : Pool := ⟨[⟨65536, 65616, 81920, 0⟩], 4095, 0, []⟩
    createPool 4096 defaultPoolSize ⟨none, some 65536⟩ = some pool ∧
      Along Arrays.step Arrays.Admits (Arrays.start pool) ops ∧
      ¬ Along Arrays.step Arrays.Good (Arrays.start pool) ops := by
  intro ops pool
  refine ⟨by decide, by decide +kernel, ?_⟩
  rintro ⟨-, ⟨-, -, hseparate⟩, -⟩
  exact absurd hseparate.apart (by decide +kernel)

end Umicat.Memory
