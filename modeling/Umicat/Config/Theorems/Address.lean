import Umicat.Config.Theorems.Valid
import Umicat.Text.Theorems.Number
import Umicat.Upstream.Address

/-!
# Addresses and their buffers

The buffers have room for the texts of well-formed addresses. The parser takes any string and any
`int`.
-/

namespace Umicat.Config

open Umicat.Base
open Umicat.Text
open Umicat.Upstream

/-! ## Lengths -/

theorem length_toList_loop (bs : ByteArray) (i : Nat) (r : List UInt8) :
    (ByteArray.toList.loop bs i r).length = r.length + (bs.size - i) := by
  fun_induction ByteArray.toList.loop bs i r with
  | case1 i r h ih =>
      rw [ih, List.length_cons]
      omega
  | case2 i r h =>
      rw [List.length_reverse]
      omega

theorem length_toUTF8 (s : String) : s.toUTF8.toList.length = s.utf8ByteSize := by
  rw [ByteArray.toList, length_toList_loop, List.length_nil, Nat.zero_add, Nat.sub_zero]
  rfl

theorem utf8Size_digitChar : ∀ d < 10, (Nat.digitChar d).utf8Size = 1 := by decide

theorem utf8ByteSize_repr (n : Nat) : n.repr.utf8ByteSize = Nat.log 10 n + 1 := by
  induction n using Nat.strongRecOn with
  | ind n ih =>
      rcases Nat.lt_or_ge n 10 with h | h
      · rw [Nat.repr_of_lt h, String.utf8ByteSize_singleton, utf8Size_digitChar n h,
          Nat.log_of_lt h]
      · rw [Nat.repr_of_ge h, String.utf8ByteSize_append, String.utf8ByteSize_singleton,
          utf8Size_digitChar _ (Nat.mod_lt _ (by decide)), ih (n / 10) (by omega),
          Nat.log_of_one_lt_of_le (by decide) h]

theorem length_sprintfLd (n : Int) : (sprintfLd n).length = width n := by
  rw [sprintfLd, length_toUTF8]
  cases n with
  | ofNat m =>
      have hrepr : toString (Int.ofNat m) = m.repr := rfl
      have hpos : ¬Int.ofNat m < 0 := Int.not_lt.mpr (Int.natCast_nonneg m)
      rw [hrepr, utf8ByteSize_repr, width, if_neg hpos, Nat.zero_add]
      rfl
  | negSucc m =>
      have hrepr : toString (Int.negSucc m) = "-" ++ (m + 1).repr := rfl
      rw [hrepr, String.utf8ByteSize_append, utf8ByteSize_repr, width,
        if_pos (Int.negSucc_lt_zero m)]
      rfl

theorem width_port_iff (n : Int) : width n + 1 ≤ inetPortstrlen ↔ -9999 ≤ n ∧ n ≤ 99999 := by
  have hlen : inetPortstrlen = 6 := by decide
  have hlog (k : Nat) : Nat.log 10 n.natAbs < k + 1 ↔ n.natAbs < 10 ^ (k + 1) := by
    rcases Nat.eq_zero_or_pos n.natAbs with h | h
    · rw [h]
      simp
    · exact Nat.log_lt_iff_lt_pow (by decide) (by omega)
  have h4 := hlog 3
  have h5 := hlog 4
  unfold width
  split <;> omega

theorem width_mono {m n : Nat} (h : m ≤ n) : width m ≤ width n := by
  have hm : ¬(m : Int) < 0 := by omega
  have hn : ¬(n : Int) < 0 := by omega
  simp only [width, hm, hn, ↓reduceIte, Int.natAbs_natCast]
  have := Nat.log_mono_right (b := 10) h
  omega

/-! ## The two buffers -/

/-- The text of the port stays in its buffer, and under `ip_hash` so do the keys of the points,
whatever stands in and behind the buffers. -/
def Cycle.AddressesFit (c : Cycle) : Prop :=
  ∀ s ∈ c.srvs,
    (∀ str, ∃ out, putPort s str = some out ∧ ∀ k ≥ inetPortstrlen, out k = str k) ∧
    (c.policy = .ipHash → ∀ j : Nat, (j : Int) < 160 * s.weight →
      ∀ str, ∀ k ≥ inet6Addrstrlen + 10, putKey s j str k = str k)

/-- A port of at most five characters; under `ip_hash`, for a server that has points, an address, a
port and a number of the last point that together take at most 53. -/
def ShortAddress (policy : Policy) (e : Conf) : Prop :=
  (-9999 ≤ e.upstreamPort.toInt ∧ e.upstreamPort.toInt ≤ 99999) ∧
    (policy = .ipHash → 0 < e.weight.toInt →
      e.upstreamIp.length + width e.upstreamPort.toInt + width (160 * e.weight.toInt - 1) ≤ 53)

theorem putPort_fits_iff (slot : Srv) (e : Conf) :
    (∀ str, ∃ out, putPort (confParseUpstream slot e) str = some out ∧
      ∀ k ≥ inetPortstrlen, out k = str k) ↔
    -9999 ≤ e.upstreamPort.toInt ∧ e.upstreamPort.toInt ≤ 99999 := by
  have hport : (confParseUpstream slot e).upstreamPort.toInt64.toInt32 = e.upstreamPort := by
    simp [confParseUpstream, toUInt]
  rw [← width_port_iff]
  constructor
  · intro h
    obtain ⟨out, hout, hframe⟩ := h fun _ => 1
    obtain ⟨t, ht, heq⟩ := itoa_printed e.upstreamPort (fun _ => 1)
      (by decide : 2 ≤ 10) (by decide)
    rw [putPort, hport, heq] at hout
    cases hout
    rw [← ht.length_eq]
    exact (store_fits_iff (by decide) _ _).mp hframe
  · intro h str
    obtain ⟨t, ht, heq⟩ := itoa_printed e.upstreamPort str (by decide : 2 ≤ 10) (by decide)
    refine ⟨_, (by rw [putPort, hport]; exact heq), fun k hk => store_of_le str _ ?_⟩
    rw [List.length_append, List.length_singleton, ht.length_eq]
    omega

theorem length_hashKey (slot : Srv) (e : Conf) (j : Nat) :
    (hashKey (confParseUpstream slot e) j).length =
      e.upstreamIp.length + width e.upstreamPort.toInt + width j + 2 := by
  simp only [hashKey, confParseUpstream, toUInt, List.length_append, List.length_cons,
    length_sprintfLd, Int64.toInt64_toUInt64, Int32.toInt_toInt64]
  omega

theorem putKey_fits_iff (slot : Srv) (e : Conf) (j : Nat) :
    (∀ str, ∀ k ≥ inet6Addrstrlen + 10, putKey (confParseUpstream slot e) j str k = str k) ↔
      e.upstreamIp.length + width e.upstreamPort.toInt + width j ≤ 53 := by
  have hcap : inet6Addrstrlen = 46 := by decide
  have hlen := length_hashKey slot e j
  constructor
  · intro h
    by_contra hlong
    -- the terminator stands behind the buffer
    have hend := store_add (store (fun _ => 1) 0 (List.replicate (inet6Addrstrlen + 10) 0)) 0
      (hashKey (confParseUpstream slot e) j).length (hashKey (confParseUpstream slot e) j ++ [0])
    have hframe := h (fun _ => 1) (hashKey (confParseUpstream slot e) j).length (by omega)
    rw [putKey] at hframe
    rw [Nat.zero_add, hframe] at hend
    simp at hend
  · intro h str k hk
    rw [putKey, store_of_le _ _ (by simp; omega), store_of_le _ _ (by simp; omega)]

/-! ## Accepted configurations -/

variable {mem : Nat → Srv} {cs : List Conf}

theorem forall_confParse {P : Srv → Prop} {Q : Conf → Prop}
    (h : ∀ slot e, P (confParseUpstream slot e) ↔ Q e) :
    (∀ s ∈ Upstream.confParse mem cs, P s) ↔ ∀ e ∈ cs, Q e := by
  constructor
  · intro hall e he
    obtain ⟨i, hi, rfl⟩ := List.mem_iff_getElem.mp he
    exact (h (mem i) _).mp (hall _ (List.mem_mapIdx.mpr ⟨i, hi, rfl⟩))
  · intro hall s hs
    obtain ⟨i, hi, rfl⟩ := List.mem_mapIdx.mp hs
    exact (h (mem i) _).mpr (hall _ (List.getElem_mem hi))

/-- The key of the last point is the longest. -/
theorem keys_fit_iff (slot : Srv) (e : Conf) :
    (∀ j : Nat, (j : Int) < 160 * (confParseUpstream slot e).weight →
      ∀ str, ∀ k ≥ inet6Addrstrlen + 10, putKey (confParseUpstream slot e) j str k = str k) ↔
    (0 < e.weight.toInt →
      e.upstreamIp.length + width e.upstreamPort.toInt + width (160 * e.weight.toInt - 1) ≤ 53) := by
  simp only [putKey_fits_iff]
  constructor
  · intro h hpos
    have hlast : (((160 * e.weight.toInt - 1).toNat : Nat) : Int) = 160 * e.weight.toInt - 1 := by
      omega
    have hfit := h (160 * e.weight.toInt - 1).toNat (by rw [hlast]; exact Int.sub_lt_self _ Int.one_pos)
    rwa [hlast] at hfit
  · intro h j hj
    have hj' : (j : Int) < 160 * e.weight.toInt := hj
    have hlast : (((160 * e.weight.toInt - 1).toNat : Nat) : Int) = 160 * e.weight.toInt - 1 := by
      omega
    have hfit := h (by omega)
    have hmono : width j ≤ width (160 * e.weight.toInt - 1).toNat := width_mono (by omega)
    rw [hlast] at hmono
    omega

/-- All texts stay in their buffers if and only if the addresses are short. -/
theorem addressesFit_iff {env : Env} {root : Json} {c : Cycle}
    (h : confParse env mem (.tree root) = some (.ok c)) (hcs : upstreamEntries root = some cs) :
    c.AddressesFit ↔ ∀ e ∈ cs, ShortAddress c.policy e := by
  obtain ⟨cs', hcs', hsrvs⟩ := readRoot_ok h
  cases hcs.symm.trans hcs'
  rw [Cycle.AddressesFit, hsrvs]
  apply forall_confParse
  intro slot e
  rw [putPort_fits_iff, keys_fit_iff, ShortAddress]

/-- An entry with the given address and port. -/
def entryAt (ip : String) (port : Int32) : Json :=
  .node .object none none 0
    [str "upstream_ip" ip, num "upstream_port" port, num "weight" 1, num "max_fails" 1,
      num "fail_timeout" 10, num "is_fallback" 1, num "traffic_window" 30]

theorem addressesFit_ipHash :
    ∃ c, confParse ⟨4, none⟩ (fun _ => default)
      (.tree (document "ip_hash" [upstream [entryAt "10.0.0.1" 65535]])) = some (.ok c) ∧
        c.AddressesFit := by
  have hparse : (confParse ⟨4, none⟩ (fun _ => default)
      (.tree (document "ip_hash" [upstream [entryAt "10.0.0.1" 65535]]))).map
        (fun r => r.toOption.isSome) = some true := by decide +kernel
  have hcs : upstreamEntries (document "ip_hash" [upstream [entryAt "10.0.0.1" 65535]]) =
      some [⟨text "10.0.0.1", 65535, 1, 1, 10, 1, 30, none⟩] := by decide +kernel
  obtain ⟨r, hr, hc⟩ := Option.map_eq_some_iff.mp hparse
  cases r with
  | error e => cases hc
  | ok c =>
      refine ⟨c, hr, (addressesFit_iff hr hcs).mpr ?_⟩
      intro e he
      rw [List.mem_singleton.mp he]
      exact ⟨by decide, fun _ _ => by decide +kernel⟩

/-- Port 100000 is accepted, and its terminator is written behind the buffer. -/
theorem addressesFit_false :
    ∃ c, confParse ⟨4, none⟩ (fun _ => default)
      (.tree (document "round_robin" [upstream [entryAt "10.0.0.1" 100000]])) = some (.ok c) ∧
        ¬c.AddressesFit := by
  have hparse : (confParse ⟨4, none⟩ (fun _ => default)
      (.tree (document "round_robin" [upstream [entryAt "10.0.0.1" 100000]]))).map
        (fun r => r.toOption.map fun c => c.srvs.map (·.upstreamPort)) = some (some [100000]) := by
    decide +kernel
  obtain ⟨r, hr, hc⟩ := Option.map_eq_some_iff.mp hparse
  cases r with
  | error e => cases hc
  | ok c =>
      refine ⟨c, hr, fun hfit => ?_⟩
      have hports : c.srvs.map (·.upstreamPort) = [100000] := Option.some.inj hc
      obtain ⟨s, hs, hport⟩ : ∃ s ∈ c.srvs, s.upstreamPort = 100000 :=
        List.mem_map.mp (by rw [hports]; exact List.mem_singleton_self _)
      obtain ⟨out, hout, hframe⟩ := (hfit s hs).1 fun _ => 7
      have hend : (putPort s fun _ => 7).map (· 6) = some 0 := by
        rw [putPort, hport]
        decide +kernel
      rw [hout, Option.map_some, hframe 6 (by decide)] at hend
      exact absurd hend (by decide)

end Umicat.Config
