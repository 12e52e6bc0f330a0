import Umicat.Relay.Flow

/-!
# Datagrams of a UDP flow

A burst is a list of datagrams that are queued one behind the other; behind it `read()` reports
EAGAIN. A burst may be empty.
-/

namespace Umicat.Relay

open Umicat.Base
open Umicat.Upstream

variable {β : Type}

def queue (bursts : List (List (List β))) : List (ReadOutcome β) :=
  bursts.flatMap fun ds => ds.map .data ++ [.eagain]

theorem queue_nil_cons (bs : List (List (List β))) : queue ([] :: bs) = .eagain :: queue bs := rfl

theorem queue_cons_cons (d : List β) (ds : List (List β)) (bs : List (List (List β))) :
    queue ((d :: ds) :: bs) = .data d :: queue (ds :: bs) := rfl

/-! ## Reads -/

section
variable (buf : Nat → β) (off nleft : Nat) (ds : List (List β)) (bs : List (List (List β)))

theorem readn_queue_nil :
    readn .dgram (queue ([] :: bs)) buf off (nleft + 1) = ⟨buf, [], .eagain, queue bs⟩ := rfl

theorem readn_queue_empty :
    readn .dgram (queue (([] :: ds) :: bs)) buf off (nleft + 1) =
      ⟨buf, [], .eof, queue (ds :: bs)⟩ := rfl

theorem readn_queue_full {d : List β} (hd : nleft + 1 ≤ d.length) :
    readn .dgram (queue ((d :: ds) :: bs)) buf off (nleft + 1) =
      ⟨store buf off (d.take (nleft + 1)), d.take (nleft + 1), .full, queue (ds :: bs)⟩ := by
  cases d with
  | nil => exact absurd hd (by simp)
  | cons b d =>
      simp only [List.length_cons] at hd
      rw [queue_cons_cons, readn, if_neg (by omega)]
      rfl

theorem readn_queue_short {d : List β} (hne : d ≠ []) (hd : d.length ≤ nleft) :
    readn .dgram (queue ((d :: ds) :: bs)) buf off (nleft + 1) =
      (readn .dgram (queue (ds :: bs)) (store buf off d) (off + d.length)
        (nleft - d.length + 1)).cons d := by
  cases d with
  | nil => exact absurd rfl hne
  | cons b d =>
      simp only [List.length_cons] at hd ⊢
      rw [queue_cons_cons, readn, if_pos (by omega), show nleft - (d.length + 1) + 1 =
        nleft - d.length from by omega]

end

theorem readn_queue_takes (buf : Nat → β) (off nleft : Nat) (d : List β) (ds : List (List β))
    (bs : List (List (List β))) :
    (readn .dgram (queue ((d :: ds) :: bs)) buf off (nleft + 1)).exit ≠ .pending ∧
      ∃ bs', (readn .dgram (queue ((d :: ds) :: bs)) buf off (nleft + 1)).rest = queue bs' ∧
        bs'.flatten <:+ (ds :: bs).flatten := by
  induction ds generalizing buf off nleft d with
  | nil =>
      by_cases hne : d = []
      · subst hne
        exact ⟨nofun, _, rfl, List.suffix_rfl⟩
      · rcases Nat.lt_or_ge nleft d.length with hd | hd
        · rw [readn_queue_full buf off nleft [] bs hd]
          exact ⟨nofun, _, rfl, List.suffix_rfl⟩
        · rw [readn_queue_short buf off nleft [] bs hne hd]
          exact ⟨nofun, bs, rfl, List.suffix_rfl⟩
  | cons d' ds ih =>
      by_cases hne : d = []
      · subst hne
        exact ⟨nofun, _, rfl, List.suffix_rfl⟩
      · rcases Nat.lt_or_ge nleft d.length with hd | hd
        · rw [readn_queue_full buf off nleft (d' :: ds) bs hd]
          exact ⟨nofun, _, rfl, List.suffix_rfl⟩
        · rw [readn_queue_short buf off nleft (d' :: ds) bs hne hd]
          obtain ⟨hexit, bs', hrest, hsuffix⟩ :=
            ih (store buf off d) (off + d.length) (nleft - d.length) d'
          exact ⟨hexit, bs', hrest, hsuffix.trans (List.suffix_cons _ _)⟩

theorem error_not_mem_queue (bs : List (List (List β))) : .error ∉ queue bs := by
  simp [queue]

/-! ## Writes -/

/-- Writes that take a whole datagram or are tried again. -/
def Whole (outs : List WriteOutcome) : Prop := ∀ o ∈ outs, o = .all ∨ o = .eintr ∨ o = .eagain

theorem writen_whole {outs : List WriteOutcome} (hw : Whole outs) (hc : 0 < outs.count .all)
    (buf : Nat → β) (n off nleft : Nat) :
    (writen buf n outs off (nleft + 1)).sent = [load buf off (nleft + 1)] ∧
      (writen buf n outs off (nleft + 1)).ret = some (n : Int) ∧
      Whole (writen buf n outs off (nleft + 1)).rest ∧
      (writen buf n outs off (nleft + 1)).rest.count .all + 1 = outs.count .all := by
  induction outs with
  | nil => simp at hc
  | cons o outs ih =>
      obtain ⟨ho, houts⟩ := List.forall_mem_cons.mp hw
      rcases ho with rfl | rfl | rfl
      · exact ⟨rfl, rfl, houts, by simp [writen]⟩
      · simpa [writen] using ih houts (by simpa using hc)
      · simpa [writen] using ih houts (by simpa using hc)

/-! ## Rounds of a flow -/

section
variable {s : Srv} {alloc : Nat → Nat → β} {k : Nat} {buf : Nat → β} {ins rest : List (ReadOutcome β)}
  {outs : List WriteOutcome}

theorem udpFlow_drained (h : (relayLoop .dgram buf ins outs).ending = .drained) :
    (udpFlow s alloc k buf ins outs).1 = (relayLoop .dgram buf ins outs).append
      (udpFlow s alloc (k + 1) (alloc (k + 1)) (relayLoop .dgram buf ins outs).ins
        (relayLoop .dgram buf ins outs).outs).1 := by
  rw [udpFlow]
  simp [epollProcessEventUdp, h, disconnect]

theorem udpFlow_ended (h : (relayLoop .dgram buf ins outs).ending ≠ .drained) :
    (udpFlow s alloc k buf ins outs).1 = relayLoop .dgram buf ins outs := by
  rw [udpFlow]
  simp [epollProcessEventUdp, h]

theorem udpFlow_nil :
    (udpFlow s alloc k buf [] outs).1 = ⟨[], [], [], .pending, [], outs⟩ := by
  have hloop := relayLoop_nil .dgram buf outs
  rw [udpFlow_ended (by simp [hloop]), hloop]

theorem udpFlow_eagain (h : readn .dgram ins buf 0 bufSize = ⟨buf, [], .eagain, rest⟩) :
    (udpFlow s alloc k buf ins outs).1 = (udpFlow s alloc (k + 1) (alloc (k + 1)) rest outs).1 := by
  have hloop : relayLoop .dgram buf ins outs = ⟨[], [], [], .drained, rest, outs⟩ := by
    rw [relayLoop, h]
    rfl
  rw [udpFlow_drained (by rw [hloop]), hloop]
  rfl

theorem udpFlow_eof (h : readn .dgram ins buf 0 bufSize = ⟨buf, [], .eof, rest⟩) :
    (udpFlow s alloc k buf ins outs).1 = ⟨[], [], [], .closed, rest, outs⟩ := by
  have hloop : relayLoop .dgram buf ins outs = ⟨[], [], [], .closed, rest, outs⟩ := by
    rw [relayLoop, h]
    rfl
  rw [udpFlow_ended (by simp [hloop]), hloop]

theorem udpFlow_after {buf' : Nat → β} {outs' : List WriteOutcome} {c : Call β}
    {sent : List (List β)}
    (h : relayLoop .dgram buf ins outs = (relayLoop .dgram buf' rest outs').after c sent) :
    (udpFlow s alloc k buf ins outs).1 = (udpFlow s alloc k buf' rest outs').1.after c sent := by
  have hending : (relayLoop .dgram buf ins outs).ending =
      (relayLoop .dgram buf' rest outs').ending := by rw [h]; rfl
  by_cases hd : (relayLoop .dgram buf' rest outs').ending = .drained
  · rw [udpFlow_drained (hending.trans hd), udpFlow_drained hd, h]
    simp [Handled.append, Handled.after, List.append_assoc]
  · rw [udpFlow_ended (hending ▸ hd), udpFlow_ended hd, h]

theorem udpFlow_data (s : Srv) (alloc : Nat → Nat → β) (k : Nat) (herr : (readn .dgram ins buf 0 bufSize).exit ≠ .error)
    (hpend : (readn .dgram ins buf 0 bufSize).exit ≠ .pending)
    (hplaced : (readn .dgram ins buf 0 bufSize).placed ≠ []) (hw : Whole outs)
    (hc : 0 < outs.count .all) :
    size (readn .dgram ins buf 0 bufSize).rest < size ins ∧
    ∃ buf' outs', Whole outs' ∧ outs'.count .all + 1 = outs.count .all ∧
      (udpFlow s alloc k buf ins outs).1.sent = (readn .dgram ins buf 0 bufSize).placed ::
        (udpFlow s alloc k buf' (readn .dgram ins buf 0 bufSize).rest outs').1.sent ∧
      (udpFlow s alloc k buf ins outs).1.ending =
        (udpFlow s alloc k buf' (readn .dgram ins buf 0 bufSize).rest outs').1.ending := by
  obtain ⟨hp, _⟩ | ⟨_, _, hnil, _⟩ | ⟨len, hlen, hcall⟩ := relayLoop_cases .dgram buf ins outs
  · exact absurd hp hpend
  · exact absurd hnil hplaced
  · obtain ⟨he, _⟩ | ⟨_, _, _, rfl⟩ := hlen
    · exact absurd he herr
    · obtain ⟨m, hm⟩ := Nat.exists_eq_add_one.mpr (List.length_pos_iff.mpr hplaced)
      obtain ⟨hsent, hret, hwhole, hcount⟩ := writen_whole hw hc
        (readn .dgram ins buf 0 bufSize).buf (m + 1) 0 m
      have hload := readn_load_zero .dgram ins buf bufSize
      rw [hm] at hcall hload
      obtain ⟨hnone, _⟩ | ⟨_, hlt, heq⟩ := hcall
      · exact absurd (hret.symm.trans hnone) (by simp)
      · refine ⟨hlt, (readn .dgram ins buf 0 bufSize).buf, _, hwhole, hcount, ?_⟩
        rw [udpFlow_after heq]
        simp [Handled.after, hsent, hload]

end

/-! ## Flows -/

/-- No datagram is empty, and one behind which another is queued fills the buffer. -/
def Separate (bursts : List (List (List β))) : Prop :=
  ∀ ds ∈ bursts, [] ∉ ds ∧ ∀ d ∈ ds.dropLast, d.length = bufSize

theorem separate_cons {ds : List (List β)} {bs : List (List (List β))} :
    Separate (ds :: bs) ↔ ([] ∉ ds ∧ ∀ d ∈ ds.dropLast, d.length = bufSize) ∧ Separate bs :=
  List.forall_mem_cons

theorem separate_nil_cons {bs : List (List (List β))} : Separate ([] :: bs) ↔ Separate bs := by
  simp [separate_cons]

theorem separate_cons_cons {d : List β} {ds : List (List β)} {bs : List (List (List β))} :
    Separate ((d :: ds) :: bs) ↔
      d ≠ [] ∧ (ds = [] ∨ d.length = bufSize) ∧ Separate (ds :: bs) := by
  rw [separate_cons, separate_cons]
  cases ds with
  | nil => simp [eq_comm]
  | cons d' ds =>
      have hmem : [] ∉ d :: d' :: ds ↔ d ≠ [] ∧ [] ∉ d' :: ds := by
        rw [List.mem_cons, not_or, eq_comm]
      rw [List.dropLast_cons_cons, List.forall_mem_cons, hmem]
      simp only [reduceCtorEq, false_or]
      tauto

theorem readn_queue_cases (buf : Nat → β) {d : List β} (ds : List (List β))
    (bs : List (List (List β))) (hne : d ≠ []) (hd : d.length ≤ bufSize) :
    (readn .dgram (queue ((d :: ds) :: bs)) buf 0 bufSize).exit ≠ .pending ∧
    (readn .dgram (queue ((d :: ds) :: bs)) buf 0 bufSize).placed ≠ [] ∧
    ∃ bs', (readn .dgram (queue ((d :: ds) :: bs)) buf 0 bufSize).rest = queue bs' ∧
      ((ds = [] ∨ d.length = bufSize) ∧
          (readn .dgram (queue ((d :: ds) :: bs)) buf 0 bufSize).placed = d ∧
          bs'.flatten = (ds :: bs).flatten ∧ (Separate bs' ↔ Separate (ds :: bs)) ∨
        ¬(ds = [] ∨ d.length = bufSize) ∧ bs'.flatten <:+ (ds.tail :: bs).flatten) := by
  have hb : bufSize = 65534 + 1 := rfl
  rw [hb] at hd ⊢
  rcases Nat.lt_or_ge 65534 d.length with hfull | hshort
  · have htake : d.take (65534 + 1) = d := List.take_of_length_le hd
    rw [readn_queue_full buf 0 65534 ds bs hfull, htake]
    exact ⟨nofun, hne, _, rfl, Or.inl ⟨Or.inr (by omega), rfl, rfl, Iff.rfl⟩⟩
  · rw [readn_queue_short buf 0 65534 ds bs hne hshort]
    cases ds with
    | nil =>
        rw [readn_queue_nil]
        refine ⟨nofun, by simpa [Readn.cons] using hne, bs, rfl, Or.inl ⟨Or.inl rfl, ?_, rfl, ?_⟩⟩
        · simp [Readn.cons]
        · exact separate_nil_cons.symm
    | cons d' ds =>
        obtain ⟨hexit, bs', hrest, hsuffix⟩ :=
          readn_queue_takes (store buf 0 d) (0 + d.length) (65534 - d.length) d' ds bs
        refine ⟨hexit, by simp [Readn.cons, hne], bs', hrest, Or.inr ⟨?_, hsuffix⟩⟩
        rintro (h | h)
        · cases h
        · omega

/-- At most one write for each datagram; each datagram is written as it came, without a teardown, if
and only if they are separate. -/
def Passes (bursts : List (List (List β))) (sent : List (List β)) (ending : Ending) : Prop :=
  sent.length ≤ bursts.flatten.length ∧
    (sent = bursts.flatten ∧ ending ≠ .closed ↔ Separate bursts)

section
variable {d placed : List β} {ds sent : List (List β)} {bs bs' : List (List (List β))}
  {ending : Ending}

theorem flatten_suffix
    (h : bs'.flatten = (ds :: bs).flatten ∨ bs'.flatten <:+ (ds.tail :: bs).flatten) :
    bs'.flatten <:+ (ds :: bs).flatten := by
  rcases h with h | h
  · exact h ▸ List.suffix_rfl
  · exact h.trans (by cases ds <;> simp)

/-- A datagram in a write of its own. -/
theorem Passes.alone (h : Passes bs' sent ending) (hne : d ≠ [])
    (halone : ds = [] ∨ d.length = bufSize) (heq : bs'.flatten = (ds :: bs).flatten)
    (hsep : Separate bs' ↔ Separate (ds :: bs)) : Passes ((d :: ds) :: bs) (d :: sent) ending := by
  obtain ⟨hle, hiff⟩ := h
  have htotal : ((d :: ds) :: bs).flatten = d :: (ds :: bs).flatten := rfl
  unfold Passes
  rw [htotal, separate_cons_cons, ← heq, ← hsep, ← hiff]
  exact ⟨Nat.succ_le_succ hle, by simp [hne, halone]⟩

/-- A write with more than one datagram leaves too few for the other writes. -/
theorem Passes.merged (h : Passes bs' sent ending) (hmerged : ¬(ds = [] ∨ d.length = bufSize))
    (hsuffix : bs'.flatten <:+ (ds.tail :: bs).flatten) :
    Passes ((d :: ds) :: bs) (placed :: sent) ending := by
  have htotal : ((d :: ds) :: bs).flatten = d :: (ds :: bs).flatten := rfl
  have hfewer : bs'.flatten.length < (ds :: bs).flatten.length := by
    cases ds with
    | nil => exact absurd (Or.inl rfl) hmerged
    | cons d' ds => exact Nat.lt_of_le_of_lt hsuffix.length_le (by simp)
  have hsent : (placed :: sent).length < ((d :: ds) :: bs).flatten.length := by
    rw [htotal, List.length_cons, List.length_cons]
    exact Nat.succ_lt_succ (Nat.lt_of_le_of_lt h.1 hfewer)
  refine ⟨hsent.le, ?_⟩
  rw [separate_cons_cons]
  constructor
  · rintro ⟨heq, -⟩
    exact absurd (congrArg List.length heq) hsent.ne
  · rintro ⟨-, halone, -⟩
    exact absurd halone hmerged

end

theorem udpFlow_queue (s : Srv) (alloc : Nat → Nat → β) (k : Nat) (buf : Nat → β)
    (bursts : List (List (List β))) (outs : List WriteOutcome)
    (hlen : ∀ d ∈ bursts.flatten, d.length ≤ bufSize) (hw : Whole outs)
    (hc : bursts.flatten.length ≤ outs.count .all) :
    Passes bursts (udpFlow s alloc k buf (queue bursts) outs).1.sent
      (udpFlow s alloc k buf (queue bursts) outs).1.ending := by
  induction hs : size (queue bursts) using Nat.strongRecOn generalizing k buf bursts outs with
  | _ n ih =>
      subst hs
      match bursts with
      | [] =>
          rw [show queue ([] : List (List (List β))) = [] from rfl, udpFlow_nil]
          simp [Passes, Separate]
      | [] :: bs =>
          rw [udpFlow_eagain (readn_queue_nil buf 0 65534 bs), Passes, separate_nil_cons]
          exact ih _ (by simp [queue_nil_cons, size_cons, ReadOutcome.size]) _ _ _ _ hlen hw hc rfl
      | ([] :: ds) :: bs =>
          rw [udpFlow_eof (readn_queue_empty buf 0 65534 ds bs)]
          simp [Passes, separate_cons_cons]
      | ((b :: d) :: ds) :: bs =>
          have hne : b :: d ≠ [] := List.cons_ne_nil b d
          generalize b :: d = d at *
          have htotal : ((d :: ds) :: bs).flatten = d :: (ds :: bs).flatten := rfl
          have hpos : 0 < outs.count .all := Nat.lt_of_lt_of_le (by simp) hc
          have herr : (readn .dgram (queue ((d :: ds) :: bs)) buf 0 bufSize).exit ≠ .error := by
            intro he
            exact error_not_mem_queue ((d :: ds) :: bs)
              ((error_mem_iff (by decide : 0 < bufSize)).mpr (Or.inl he))
          obtain ⟨hpend, hplaced, bs', hrest, hcases⟩ :=
            readn_queue_cases buf ds bs hne (hlen d (by simp))
          obtain ⟨hlt, buf', outs', hw', hcount, hsent, hending⟩ :=
            udpFlow_data s alloc k herr hpend hplaced hw hpos
          rw [hrest] at hlt hsent hending
          have hsub := flatten_suffix (hcases.imp (·.2.2.1) (·.2))
          have hlen' : ∀ d ∈ bs'.flatten, d.length ≤ bufSize := fun x hx =>
            hlen x (htotal ▸ List.mem_cons_of_mem _ (hsub.subset hx))
          have hc' : bs'.flatten.length ≤ outs'.count .all := by
            have := hsub.length_le
            rw [htotal, List.length_cons] at hc
            omega
          have hpasses := ih _ hlt k buf' bs' outs' hlen' hw' hc' rfl
          rw [hsent, hending]
          rcases hcases with ⟨halone, hplaced, heq, hsep⟩ | ⟨hmerged, hsuffix⟩
          · rw [hplaced]
            exact hpasses.alone hne halone heq hsep
          · exact hpasses.merged hmerged hsuffix

/-- A UDP flow passes on every datagram in a write of its own, and stays open, if and only if no
datagram is empty and none is queued behind one that leaves room in the buffer. -/
theorem udp_datagrams_kept_iff (s : Srv) (alloc : Nat → Nat → β) (bursts : List (List (List β)))
    (outs : List WriteOutcome) (hlen : ∀ d ∈ bursts.flatten, d.length ≤ bufSize) (hw : Whole outs)
    (hc : bursts.flatten.length ≤ outs.count .all) :
    (udpFlow s alloc 0 (alloc 0) (queue bursts) outs).1.sent = bursts.flatten ∧
        (udpFlow s alloc 0 (alloc 0) (queue bursts) outs).1.ending ≠ .closed ↔
      ∀ ds ∈ bursts, [] ∉ ds ∧ ∀ d ∈ ds.dropLast, d.length = bufSize :=
  (udpFlow_queue s alloc 0 (alloc 0) bursts outs hlen hw hc).2

/-- Datagrams that arrive one by one. -/
theorem udp_datagrams_kept_one_by_one :
    (udpFlow (β := UInt8) default (fun _ _ => 0) 0 (fun _ => 0) (queue [[[1, 2]], [], [[3]]])
        [.all, .eagain, .all]).1.sent = [[1, 2], [3]] ∧
      (udpFlow (β := UInt8) default (fun _ _ => 0) 0 (fun _ => 0) (queue [[[1, 2]], [], [[3]]])
        [.all, .eagain, .all]).1.ending ≠ .closed :=
  (udp_datagrams_kept_iff (β := UInt8) default (fun _ _ => 0) [[[1, 2]], [], [[3]]]
    [.all, .eagain, .all] (by simp [bufSize]) (by simp [Whole]) (by decide)).mpr (by simp)

/-- Two queued datagrams leave in one write, and an empty datagram ends the flow. -/
theorem udp_datagrams_merged :
    let two := (udpFlow (β := UInt8) default (fun _ _ => 0) 0 (fun _ => 0) (queue [[[1], [2]]])
      [.all, .all]).1
    let none := (udpFlow (β := UInt8) default (fun _ _ => 0) 0 (fun _ => 0) (queue [[[]]]) [.all]).1
    two.sent = [[1, 2]] ∧ none.sent = [] ∧ none.ending = .closed ∧
      ¬(two.sent = [[1], [2]] ∧ two.ending ≠ .closed) ∧
      ¬(none.sent = [[]] ∧ none.ending ≠ .closed) := by
  intro two none
  have htwo : two.sent = [[1, 2]] := by
    simp only [two]
    rw [udpFlow]
    simp [epollProcessEventUdp, relayLoop, queue, readn, Readn.ret, Readn.cons, toSize, bufSize,
      writen, Handled.after, load, store, List.range_succ]
  have hnone : none = ⟨[], [], [], .closed, queue [[]], [.all]⟩ :=
    udpFlow_eof (readn_queue_empty _ 0 65534 [] [])
  simp [htwo, hnone]

end Umicat.Relay
