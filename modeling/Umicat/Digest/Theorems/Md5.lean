import Umicat.Digest.Rfc1321

/-!
# The streaming code computes MD5

Whatever pieces a message comes in, the state behind them holds the digest of the full blocks and the
bytes behind these, and the end pads and folds what the standard says.
-/

namespace Umicat.Digest

open Umicat.Base

/-! ## One block -/

theorem set_eq (fn : UInt32 → UInt32 → UInt32 → UInt32) (a b c d x s t : UInt32) :
    set fn a b c d x s t = b + rotateLeft (a + fn b c d + x + t) s := UInt32.add_comm _ _

theorem tTable_eq : Rfc1321.table = tTable := by decide

/-- The registers moved on by one place. -/
def Regs.turn (r : Regs) : Regs := ⟨r.d, r.a, r.b, r.c⟩

section

variable (x : Nat → UInt32) (k j : Nat) (r : Regs)

/-- `SET` on one of the registers, with what the standard has for operation `j` of round `k`. -/
def operate (x : Nat → UInt32) (k j : Nat)
    (set : (UInt32 → UInt32 → UInt32 → UInt32) → UInt32 → UInt32 → UInt32 → Regs → Regs) :
    Regs → Regs :=
  set (Rfc1321.aux k) (x (Rfc1321.index k j)) ((Rfc1321.shifts k).getD (j % 4) 0)
    (ti (16 * k + j + 1))

theorem step_a : Rfc1321.step x k r j = (operate x k j Regs.setA r).turn := by
  simp only [Rfc1321.step, operate, Regs.setA, Regs.turn, set_eq, tTable_eq, ti, Nat.add_sub_cancel]

theorem step_d : Rfc1321.step x k r.turn j = (operate x k j Regs.setD r).turn.turn := by
  simp only [Rfc1321.step, operate, Regs.setD, Regs.turn, set_eq, tTable_eq, ti, Nat.add_sub_cancel]

theorem step_c : Rfc1321.step x k r.turn.turn j = (operate x k j Regs.setC r).turn.turn.turn := by
  simp only [Rfc1321.step, operate, Regs.setC, Regs.turn, set_eq, tTable_eq, ti, Nat.add_sub_cancel]

theorem step_b : Rfc1321.step x k r.turn.turn.turn j = operate x k j Regs.setB r := by
  simp only [Rfc1321.step, operate, Regs.setB, Regs.turn, set_eq, tTable_eq, ti, Nat.add_sub_cancel]

theorem round_eq : Rfc1321.round x r k = [0, 4, 8, 12].foldl (fun r j =>
    operate x k (j + 3) Regs.setB (operate x k (j + 2) Regs.setC (operate x k (j + 1) Regs.setD
      (operate x k j Regs.setA r)))) r := by
  have hrange : List.range 16 = [0, 4, 8, 12].flatMap fun j => [j, j + 1, j + 2, j + 3] := by decide
  rw [Rfc1321.round, hrange, List.foldl_flatMap]
  congr 1
  funext r j
  simp only [List.foldl_cons, List.foldl_nil]
  rw [step_a x k j r, step_d, step_c, step_b]

theorem round1_eq : round1 x r = Rfc1321.round x r 0 := by
  simp only [round_eq, List.foldl_cons, List.foldl_nil, operate]
  rfl

theorem round2_eq : round2 x r = Rfc1321.round x r 1 := by
  simp only [round_eq, List.foldl_cons, List.foldl_nil, operate]
  rfl

theorem round3_eq : round3 x r = Rfc1321.round x r 2 := by
  simp only [round_eq, List.foldl_cons, List.foldl_nil, operate]
  rfl

theorem round4_eq : round4 x r = Rfc1321.round x r 3 := by
  simp only [round_eq, List.foldl_cons, List.foldl_nil, operate]
  rfl

end

theorem md5Process_eq : md5Process = Rfc1321.compress := by
  funext abcd block
  have hrange : List.range 4 = [0, 1, 2, 3] := by decide
  simp only [md5Process, Rfc1321.compress, hrange, List.foldl_cons, List.foldl_nil, round1_eq,
    round2_eq, round3_eq, round4_eq]

/-! ## The length -/

/-- The length in bits that the state has counted. -/
def State.bits (st : State) : Nat := st.count0.toNat + 2 ^ 32 * st.count1.toNat

theorem bits_addCount {st : State} {n : Nat} (hn : n < 2 ^ 28) :
    (addCount st n).bits = (st.bits + 8 * n) % 2 ^ 64 := by
  have hnbits : (UInt32.ofNat (n <<< 3)).toNat = 8 * n := by
    rw [UInt32.toNat_ofNat', Nat.shiftLeft_eq]
    omega
  have hhigh : UInt32.ofNat (n >>> 29) = 0 := by
    rw [Nat.shiftRight_eq_div_pow, Nat.div_eq_of_lt (by omega)]
    rfl
  have h0 := st.count0.toNat_lt
  have h1 := st.count1.toNat_lt
  unfold State.bits addCount
  simp only [hhigh, UInt32.add_zero, UInt32.lt_iff_toNat_lt, UInt32.toNat_add, hnbits]
  split
  · rw [UInt32.toNat_add, UInt32.toNat_one]
    omega
  · omega

theorem offset_eq {st : State} {n : Nat} (h : st.bits = 8 * n % 2 ^ 64) :
    ((st.count0 >>> 3) &&& 63).toNat = n % 64 := by
  have hlow : st.count0.toNat = 8 * n % 2 ^ 32 := by
    have h0 := st.count0.toNat_lt
    unfold State.bits at h
    omega
  rw [UInt32.toNat_and, UInt32.toNat_shiftRight, hlow]
  change (8 * n % 2 ^ 32) >>> 3 &&& 63 = n % 64
  rw [Nat.shiftRight_eq_div_pow, show 63 = 2 ^ 6 - 1 by rfl, Nat.and_two_pow_sub_one_eq_mod]
  omega

/-! ## Pieces -/

/-- `st` is the state behind the message `m`. -/
structure Holds (st : State) (m : List UInt8) : Prop where
  bits : st.bits = 8 * m.length % 2 ^ 64
  abcd : st.abcd = (blocks 64 m).foldl md5Process Rfc1321.start
  buf : load st.buf 0 (rest 64 m).length = rest 64 m

theorem holds_init (buf : Nat → UInt8) : Holds (md5Init buf) [] :=
  ⟨rfl, rfl, rfl⟩

theorem processBlocks_eq (st : State) {fuel : Nat} {p : List UInt8} (h : p.length ≤ fuel) :
    processBlocks st fuel p =
      { st with
        abcd := (blocks 64 p).foldl md5Process st.abcd
        buf := store st.buf 0 (rest 64 p) } := by
  induction fuel generalizing st p with
  | zero =>
      obtain rfl := List.length_eq_zero_iff.mp (Nat.le_zero.mp h)
      rfl
  | succ fuel ih =>
      rw [processBlocks]
      split
      · next hle =>
          rw [ih _ (by rw [List.length_drop]; omega), blocks_of_le (by decide) hle,
            rest_of_le (by decide) hle, List.foldl_cons]
      · next hlt =>
          rw [blocks_of_lt (by omega), rest_of_lt (by omega), List.foldl_nil]

/-- What the full blocks of the buffered bytes and the new ones make of the digest, and what is left
in the buffer, is all there is to a state behind a longer message. -/
theorem Holds.extend {st st' : State} {m data : List UInt8} (h : Holds st m)
    (hbits : st'.bits = (st.bits + 8 * data.length) % 2 ^ 64)
    (habcd : st'.abcd = (blocks 64 (rest 64 m ++ data)).foldl md5Process st.abcd)
    (hbuf : load st'.buf 0 (rest 64 (rest 64 m ++ data)).length = rest 64 (rest 64 m ++ data)) :
    Holds st' (m ++ data) := by
  obtain ⟨hblocks, hrest⟩ := blocks_append (n := 64) (by decide) m data
  constructor
  case bits =>
      rw [hbits, h.bits, List.length_append]
      omega
  case abcd => rw [habcd, h.abcd, hblocks, List.foldl_append]
  case buf => rw [hrest, hbuf]

/-- The bytes of the buffer with new ones behind them. -/
theorem load_store_rest {st : State} {m : List UInt8} (h : Holds st m) (bs : List UInt8) :
    load (store st.buf (m.length % 64) bs) 0 (m.length % 64 + bs.length) = rest 64 m ++ bs := by
  rw [load_add, load_store_below _ _ _ (by omega), Nat.zero_add, load_store_self]
  have hbuf := h.buf
  rw [length_rest] at hbuf
  rw [hbuf]

section

variable {st : State} {m data : List UInt8} (h : Holds st m) (hdata : data.length < 2 ^ 28)

include h hdata

/-- The buffer is not full yet. -/
theorem Holds.append_short (hlt : m.length % 64 + data.length < 64) :
    Holds { addCount st data.length with buf := store st.buf (m.length % 64) data } (m ++ data) := by
  have hpending : (rest 64 m ++ data).length = m.length % 64 + data.length := by
    rw [List.length_append, length_rest]
  apply h.extend
  · exact bits_addCount hdata
  · rw [blocks_of_lt (by omega)]
    rfl
  · rw [rest_of_lt (by omega), hpending]
    exact load_store_rest h data

/-- The full blocks behind the buffer, once that is full and gone. -/
theorem Holds.append_blocks {abcd : Regs} {buf : Nat → UInt8} {fuel : Nat} {p : List UInt8}
    (hfuel : p.length ≤ fuel)
    (hblocks : (blocks 64 (rest 64 m ++ data)).foldl md5Process st.abcd =
      (blocks 64 p).foldl md5Process abcd)
    (hrest : rest 64 (rest 64 m ++ data) = rest 64 p) :
    Holds (processBlocks { addCount st data.length with abcd := abcd, buf := buf } fuel p)
      (m ++ data) := by
  rw [processBlocks_eq _ hfuel]
  apply h.extend
  · exact bits_addCount hdata
  · exact hblocks.symm
  · rw [hrest]
    exact load_store_self _ _ _

/-- The first of the new bytes fill the buffer. -/
theorem Holds.append_full (hle : 64 ≤ m.length % 64 + data.length) :
    Holds (processBlocks { addCount st data.length with
      abcd := md5Process st.abcd
        (load (store st.buf (m.length % 64) (data.take (64 - m.length % 64))) 0 64)
      buf := store st.buf (m.length % 64) (data.take (64 - m.length % 64)) }
      (data.length - (64 - m.length % 64)) (data.drop (64 - m.length % 64))) (m ++ data) := by
  have hlt : m.length % 64 < 64 := Nat.mod_lt _ (by decide)
  have hlen : (rest 64 m).length = m.length % 64 := length_rest 64 m
  have hpending : 64 ≤ (rest 64 m ++ data).length := by rw [List.length_append]; omega
  have htake : (rest 64 m ++ data).take 64 =
      load (store st.buf (m.length % 64) (data.take (64 - m.length % 64))) 0 64 := by
    have hload := load_store_rest h (data.take (64 - m.length % 64))
    rw [List.length_take, Nat.min_eq_left (by omega), Nat.add_sub_cancel' (Nat.le_of_lt hlt)] at hload
    rw [hload, List.take_append, hlen, List.take_of_length_le (by omega)]
  have hdrop : (rest 64 m ++ data).drop 64 = data.drop (64 - m.length % 64) := by
    rw [List.drop_append, hlen, List.drop_of_length_le (by omega), List.nil_append]
  apply h.append_blocks hdata
  · rw [List.length_drop]
  · rw [blocks_of_le (by decide) hpending, htake, hdrop, List.foldl_cons]
  · rw [rest_of_le (by decide) hpending, hdrop]

theorem Holds.append : Holds (md5Append st data) (m ++ data) := by
  have hlt : m.length % 64 < 64 := Nat.mod_lt _ (by decide)
  unfold md5Append
  rw [offset_eq h.bits]
  split
  next hnil =>
      rw [List.length_eq_zero_iff.mp hnil, List.append_nil]
      exact h
  next hne =>
      by_cases hoff : m.length % 64 = 0
      · have hrest : rest 64 m = [] := by rw [← List.length_eq_zero_iff, length_rest, hoff]
        simp only [hoff, ne_eq, not_true_eq_false, ↓reduceIte]
        apply h.append_blocks hdata (Nat.le_refl _)
        · rw [hrest]
          rfl
        · rw [hrest, List.nil_append]
      · simp only [hoff, ne_eq, not_false_eq_true, ↓reduceIte]
        by_cases hshort : m.length % 64 + data.length < 64
        · have hcopy : ¬m.length % 64 + data.length > 64 := by omega
          simp only [hcopy, hshort, ↓reduceIte, List.take_length]
          exact h.append_short hdata hshort
        · have hcopy : (if m.length % 64 + data.length > 64 then 64 - m.length % 64
              else data.length) = 64 - m.length % 64 := by
            split <;> omega
          have hfull : ¬m.length % 64 + (64 - m.length % 64) < 64 := by omega
          simp only [hcopy, hfull, ↓reduceIte]
          exact h.append_full hdata (by omega)

end

/-! ## The end -/

theorem littleEndian_add (n j k : Nat) : Rfc1321.littleEndian n (j + k) =
    Rfc1321.littleEndian n j ++ Rfc1321.littleEndian (n / 256 ^ j) k := by
  induction j generalizing n with
  | zero => simp [Rfc1321.littleEndian]
  | succ j ih =>
      rw [Nat.succ_add, Rfc1321.littleEndian, Rfc1321.littleEndian, ih, Nat.div_div_eq_div_mul,
        Nat.pow_succ', List.cons_append]

theorem littleEndian_mod (n k : Nat) :
    Rfc1321.littleEndian (n % 256 ^ k) k = Rfc1321.littleEndian n k := by
  induction k generalizing n with
  | zero => rfl
  | succ k ih =>
      have hlow : UInt8.ofNat (n % 256 ^ (k + 1)) = UInt8.ofNat n := by
        rw [← UInt8.toNat_inj, UInt8.toNat_ofNat', UInt8.toNat_ofNat', Nat.pow_succ',
          Nat.mod_mul_right_mod]
      rw [Rfc1321.littleEndian, Rfc1321.littleEndian, hlow, Nat.pow_succ', Nat.mod_mul_right_div_self,
        ih]

theorem byteOf_eq (w : Nat → UInt32) (q : Nat) {k : Nat} (hk : k < 4) :
    byteOf w (4 * q + k) = UInt8.ofNat ((w q).toNat / 256 ^ k) := by
  have hword : (4 * q + k) >>> 2 = q := by
    rw [Nat.shiftRight_eq_div_pow]
    omega
  have hbyte : (4 * q + k) &&& 3 = k := by
    rw [show 3 = 2 ^ 2 - 1 by rfl, Nat.and_two_pow_sub_one_eq_mod]
    omega
  have hshift : (UInt32.ofNat (k <<< 3)).toNat = 8 * k := by
    rw [UInt32.toNat_ofNat', Nat.shiftLeft_eq]
    omega
  rw [byteOf, hword, hbyte, ← UInt8.toNat_inj, UInt32.toNat_toUInt8, UInt32.toNat_shiftRight, hshift,
    Nat.mod_eq_of_lt (by omega : 8 * k < 32), Nat.shiftRight_eq_div_pow, Nat.pow_mul,
    UInt8.toNat_ofNat']

/-- The four bytes of one word. -/
theorem map_byteOf (w : Nat → UInt32) (q : Nat) :
    [4 * q, 4 * q + 1, 4 * q + 2, 4 * q + 3].map (byteOf w) =
      Rfc1321.littleEndian (w q).toNat 4 := by
  have h0 := byteOf_eq w q (k := 0) (by decide)
  have h1 := byteOf_eq w q (k := 1) (by decide)
  have h2 := byteOf_eq w q (k := 2) (by decide)
  have h3 := byteOf_eq w q (k := 3) (by decide)
  simp only [List.map_cons, List.map_nil, Rfc1321.littleEndian, Nat.div_div_eq_div_mul] at *
  rw [h1, h2, h3]
  simp_all

theorem map_byteOf_count {st : State} {n : Nat} (h : st.bits = 8 * n % 2 ^ 64) :
    (List.range 8).map (byteOf fun j => if j = 0 then st.count0 else st.count1) =
      Rfc1321.littleEndian (8 * n) 8 := by
  have hrange : List.range 8 = [4 * 0, 4 * 0 + 1, 4 * 0 + 2, 4 * 0 + 3] ++
      [4 * 1, 4 * 1 + 1, 4 * 1 + 2, 4 * 1 + 3] := by decide
  have h0 := st.count0.toNat_lt
  have h1 := st.count1.toNat_lt
  have hmod : 8 * n % 256 ^ 8 = st.bits := h.symm
  have hlow : st.bits % 256 ^ 4 = st.count0.toNat := by unfold State.bits; omega
  have hhigh : st.bits / 256 ^ 4 = st.count1.toNat := by unfold State.bits; omega
  rw [hrange, List.map_append, map_byteOf, map_byteOf, if_pos rfl, if_neg (by decide),
    ← littleEndian_mod (8 * n), hmod, littleEndian_add _ 4 4, ← littleEndian_mod st.bits, hlow, hhigh]

theorem map_byteOf_abcd (r : Regs) :
    (List.range 16).map (byteOf r.word) = Rfc1321.littleEndian r.a.toNat 4 ++
      Rfc1321.littleEndian r.b.toNat 4 ++ Rfc1321.littleEndian r.c.toNat 4 ++
        Rfc1321.littleEndian r.d.toNat 4 := by
  have hrange : List.range 16 = [4 * 0, 4 * 0 + 1, 4 * 0 + 2, 4 * 0 + 3] ++
      [4 * 1, 4 * 1 + 1, 4 * 1 + 2, 4 * 1 + 3] ++ [4 * 2, 4 * 2 + 1, 4 * 2 + 2, 4 * 2 + 3] ++
        [4 * 3, 4 * 3 + 1, 4 * 3 + 2, 4 * 3 + 3] := by decide
  rw [hrange, List.map_append, List.map_append, List.map_append, map_byteOf, map_byteOf, map_byteOf,
    map_byteOf]
  rfl

/-- How many bytes of `pad` the code appends. -/
theorem padLength_eq {st : State} {n : Nat} (h : st.bits = 8 * n % 2 ^ 64) :
    ((((55 : UInt32) - (st.count0 >>> 3)) &&& 63) + 1).toNat = (119 - n % 64) % 64 + 1 := by
  have hlow : st.count0.toNat = 8 * n % 2 ^ 32 := by
    have h0 := st.count0.toNat_lt
    unfold State.bits at h
    omega
  have hsub : ((55 : UInt32) - (st.count0 >>> 3)).toNat % 64 = (119 - n % 64) % 64 := by
    rw [UInt32.toNat_sub, UInt32.toNat_shiftRight, hlow]
    change (2 ^ 32 - (8 * n % 2 ^ 32) >>> 3 + 55) % 2 ^ 32 % 64 = _
    rw [Nat.shiftRight_eq_div_pow]
    omega
  rw [UInt32.toNat_add, UInt32.toNat_and]
  change ((_ &&& 2 ^ 6 - 1) + 1) % 2 ^ 32 = _
  rw [Nat.and_two_pow_sub_one_eq_mod, hsub]
  omega

theorem take_pad {k : Nat} (h : k < 64) : pad.take (k + 1) = 0x80 :: List.replicate k 0 := by
  rw [pad, List.take_succ_cons, List.take_replicate, Nat.min_eq_left (by omega)]

theorem md5Finish_eq {st : State} {m : List UInt8} (h : Holds st m) :
    md5Finish st = Rfc1321.digest m := by
  have hlt : (119 - m.length % 64) % 64 < 64 := Nat.mod_lt _ (by decide)
  have hpad : Holds _ (m ++ (0x80 :: List.replicate ((119 - m.length % 64) % 64) 0)) :=
    h.append (by rw [List.length_cons, List.length_replicate]; omega)
  have hlen : (Rfc1321.littleEndian (8 * m.length) 8).length < 2 ^ 28 := by
    rw [show (Rfc1321.littleEndian (8 * m.length) 8).length = 8 from rfl]
    decide
  have hlength := hpad.append hlen
  have hmessage : m ++ 0x80 :: List.replicate ((119 - m.length % 64) % 64) 0 ++
      Rfc1321.littleEndian (8 * m.length) 8 = m ++ Rfc1321.padding m.length := List.append_assoc ..
  rw [hmessage] at hlength
  unfold md5Finish
  dsimp only
  rw [map_byteOf_count h.bits, padLength_eq h.bits, take_pad hlt, map_byteOf_abcd, hlength.abcd,
    md5Process_eq]
  rfl

theorem holds_foldl {st : State} {m : List UInt8} (h : Holds st m) {chunks : List (List UInt8)}
    (hchunks : ∀ data ∈ chunks, data.length < 2 ^ 28) :
    Holds (chunks.foldl md5Append st) (m ++ chunks.flatten) := by
  induction chunks generalizing st m with
  | nil =>
      rw [List.flatten_nil, List.append_nil]
      exact h
  | cons data chunks ih =>
      have hhead := h.append (hchunks data List.mem_cons_self)
      have htail := ih hhead fun d hd => hchunks d (List.mem_cons_of_mem data hd)
      rw [List.append_assoc, ← List.flatten_cons] at htail
      exact htail

/-- However a message is cut into calls of `md5_append`, `md5_finish` returns its MD5 digest. -/
theorem md5Finish_of_chunks (buf : Nat → UInt8) (chunks : List (List UInt8))
    (hchunks : ∀ data ∈ chunks, data.length < 2 ^ 28) :
    md5Finish (chunks.foldl md5Append (md5Init buf)) = Rfc1321.digest chunks.flatten :=
  md5Finish_eq (holds_foldl (holds_init buf) hchunks)

/-- The second piece goes over the end of the first block. -/
theorem md5Finish_of_chunks_two :
    md5Finish ([[97], List.replicate 64 98].foldl md5Append (md5Init fun _ => 7)) =
      Rfc1321.digest (97 :: List.replicate 64 98) :=
  md5Finish_of_chunks _ [[97], List.replicate 64 98] (by simp)

end Umicat.Digest
