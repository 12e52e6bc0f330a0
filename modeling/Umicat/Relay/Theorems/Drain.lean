import Umicat.Relay.Lemmas.Calls
import Umicat.Relay.Theorems.Length

/-!
# What ends an event

The epoll sets are edge-triggered: an event whose handling leaves bytes behind is not reported again.
The reads of an event go on until `read()` reports that there is nothing left, or the end.
-/

namespace Umicat.Relay

open Umicat.Upstream

variable {β : Type}

variable {buf : Nat → β} {ins os : List (ReadOutcome β)} {outs : List WriteOutcome}

/-! ## The loop -/

theorem readn_full {kind : Kind} {off nleft : Nat} (hn : 0 < nleft)
    (h : (readn kind os buf off nleft).exit = .full) : (readn kind os buf off nleft).placed ≠ [] := by
  fun_induction readn kind os buf off nleft with
  | case1 => omega
  | case3 os buf off nleft ih => exact ih hn h
  | case8 b bs os buf off nleft hlt ih => simp [Readn.cons]
  | case9 => exact List.cons_ne_nil _ _
  | _ => cases h

/-- Without a hard error a call of `uct_writen` that returns has passed on the whole buffer. -/
theorem writen_complete {n off nleft : Nat} (he : .error ∉ outs)
    (h : (writen buf n outs off nleft).ret ≠ none) :
    (writen buf n outs off nleft).sent.flatten = Base.load buf off nleft := by
  fun_induction writen buf n outs off nleft with
  | case1 => rfl
  | case2 => exact absurd rfl h
  | case3 => simp
  | case4 k outs off nleft ih =>
      have hsent := ih (fun hm => he (List.mem_cons_of_mem _ hm)) h
      simp only [Writen.cons, List.flatten_cons, hsent]
      rw [← Base.load_add]
      congr 1
      omega
  | case5 outs off nleft ih => exact ih (fun hm => he (List.mem_cons_of_mem _ hm)) h
  | case6 outs off nleft ih => exact ih (fun hm => he (List.mem_cons_of_mem _ hm)) h
  | case7 => exact absurd List.mem_cons_self he

theorem writen_none {n off nleft : Nat} (h : (writen buf n outs off nleft).ret = none) :
    (writen buf n outs off nleft).rest = [] := by
  fun_induction writen buf n outs off nleft with
  | case2 => rfl
  | case4 k outs off nleft ih => exact ih h
  | case5 outs off nleft ih => exact ih h
  | case6 outs off nleft ih => exact ih h
  | _ => cases h

/-- During an event the calls of `read()` reported `rs`, and those of `write()` reported `wss`, one
list for each call of `uct_writen`. All bytes read were passed on in order, and the last `read()`
reported EAGAIN when the pair is left open, EOF when it is torn down. An event that has not ended
has used up the outcomes of `read()`, or it `waits` for a `write()` that accepts more. -/
structure Handled.Drains (ins : List (ReadOutcome β)) (outs : List WriteOutcome)
    (rs : List (Report β)) (wss : List (List (WriteReport β))) (waits : Bool) (t : Handled β) :
    Prop where
  reads : Reads ins rs t.ins
  bytes : t.read = received rs
  writes : Writes waits (t.calls.map (·.placed)) outs wss t.outs
  exact : t.Exact
  passed : (t.calls.map (·.placed)).flatten <+: received rs
  passed_all : t.ending ≠ .pending → (t.calls.map (·.placed)).flatten = received rs
  sent : t.sent.flatten = accepted wss.flatten
  sent_all : t.ending ≠ .pending → .error ∉ outs → t.sent.flatten = received rs
  ends : t.ending = .drained ∧ waits = false ∧ rs.getLast? = some .eagain ∨
    t.ending = .closed ∧ waits = false ∧ rs.getLast? = some .eof ∨
    t.ending = .pending ∧ (t.ins = [] ∨ waits = true)

theorem received_append (rs rs' : List (Report β)) :
    received (rs ++ rs') = received rs ++ received rs' :=
  List.flatMap_append

theorem accepted_append (ws ws' : List (WriteReport β)) :
    accepted (ws ++ ws') = accepted ws ++ accepted ws' :=
  List.flatMap_append

theorem Handled.Drains.after {r : Readn β} {w : Writen β} {t : Handled β} {rs rs' : List (Report β)}
    {ws : List (WriteReport β)} {wss : List (List (WriteReport β))} {waits : Bool}
    (h : t.Drains r.rest w.rest rs' wss waits) (hrs : Reads ins rs r.rest)
    (hplaced : received rs = r.placed) (hlen : r.placed.length ≤ bufSize)
    (hws : WriteCalls r.placed outs ws w.rest) (hsettled : Settled r.placed ws)
    (hsent : accepted ws = w.sent.flatten) (hsuffix : w.rest <:+ outs)
    (hall : .error ∉ outs → w.sent.flatten = r.placed) :
    (t.after ⟨r.placed.length, r.placed⟩ w.sent).Drains ins outs (rs ++ rs') (ws :: wss) waits where
  reads := hrs.append h.reads
  bytes := by
    rw [received_append, hplaced, ← h.bytes]
    rfl
  writes := .returns hws hsettled h.writes
  exact := exact_after.mpr ⟨⟨rfl, hlen⟩, h.exact⟩
  passed := by
    rw [received_append, hplaced]
    exact (List.prefix_append_right_inj _).mpr h.passed
  passed_all := by
    intro hne
    rw [received_append, hplaced, ← h.passed_all hne]
    rfl
  sent := by
    rw [List.flatten_cons, accepted_append, hsent, ← h.sent]
    exact List.flatten_append
  sent_all := by
    intro hne he
    rw [received_append, hplaced, ← hall he, ← h.sent_all hne (fun hm => he (hsuffix.subset hm))]
    exact List.flatten_append
  ends := by
    rcases h.ends with ⟨he, hw, hlast⟩ | ⟨he, hw, hlast⟩ | hp
    · exact Or.inl ⟨he, hw, by simp [List.getLast?_append, hlast]⟩
    · exact Or.inr (Or.inl ⟨he, hw, by simp [List.getLast?_append, hlast]⟩)
    · exact Or.inr (Or.inr hp)

/-- `uct_readn` waits for a `read()`. -/
theorem drains_reading {r : Readn β} {rs : List (Report β)} (hrs : Reads ins rs r.rest)
    (hplaced : received rs = r.placed) (hnil : r.rest = []) :
    Handled.Drains ins outs rs [] false ⟨[], r.placed, [], .pending, r.rest, outs⟩ where
  reads := hrs
  bytes := hplaced.symm
  writes := .nil
  exact := by simp [Handled.Exact]
  passed := List.nil_prefix
  passed_all := fun hne => absurd rfl hne
  sent := rfl
  sent_all := fun hne => absurd rfl hne
  ends := Or.inr (Or.inr ⟨rfl, Or.inl hnil⟩)

/-- `uct_readn` has returned 0. -/
theorem drains_stop {os : List (ReadOutcome β)} {rs : List (Report β)} {ending : Ending}
    (hrs : Reads ins rs os) (hnil : received rs = [])
    (hends : ending = .drained ∧ rs.getLast? = some .eagain ∨
      ending = .closed ∧ rs.getLast? = some .eof) :
    Handled.Drains ins outs rs [] false ⟨[], [], [], ending, os, outs⟩ where
  reads := hrs
  bytes := hnil.symm
  writes := .nil
  exact := by simp [Handled.Exact]
  passed := List.nil_prefix
  passed_all := fun _ => hnil.symm
  sent := rfl
  sent_all := fun _ _ => hnil.symm
  ends := by
    rcases hends with ⟨he, hlast⟩ | ⟨he, hlast⟩
    · exact Or.inl ⟨he, rfl, hlast⟩
    · exact Or.inr (Or.inl ⟨he, rfl, hlast⟩)

/-- `uct_writen` waits for a `write()`. -/
theorem drains_writing {r : Readn β} {w : Writen β} {rs : List (Report β)}
    {ws : List (WriteReport β)} (hrs : Reads ins rs r.rest) (hplaced : received rs = r.placed)
    (hlen : r.placed.length ≤ bufSize) (hws : WriteCalls r.placed outs ws w.rest)
    (hnil : w.rest = []) (hwaits : ¬Settled r.placed ws) (hsent : accepted ws = w.sent.flatten) :
    Handled.Drains ins outs rs [ws] true
      ⟨[⟨r.placed.length, r.placed⟩], r.placed, w.sent, .pending, r.rest, w.rest⟩ where
  reads := hrs
  bytes := hplaced.symm
  writes := by
    rw [hnil] at hws ⊢
    exact .waits hws hwaits
  exact := by simp [Handled.Exact, hlen]
  passed := by simp [hplaced]
  passed_all := fun hne => absurd rfl hne
  sent := by simp [hsent]
  sent_all := fun hne => absurd rfl hne
  ends := Or.inr (Or.inr ⟨rfl, Or.inr rfl⟩)

theorem relayLoop_drains (h : .error ∉ ins) :
    ∃ rs wss waits, (relayLoop .stream buf ins outs).Drains ins outs rs wss waits := by
  induction buf, ins, outs using relayLoop_induction with
  | round buf ins outs ih =>
      rw [error_mem_iff (by decide : 0 < bufSize), not_or] at h
      obtain ⟨rs, hrs, hplaced, hlast⟩ := readn_reads ins buf 0 bufSize h.1
      have hlen := readn_length .stream ins buf 0 bufSize
      obtain ⟨hp, heq⟩ | ⟨-, hp, hnil, heq⟩ | ⟨len, hlen', hw⟩ :=
        relayLoop_cases .stream buf ins outs
      · rw [heq]
        exact ⟨rs, [], false, drains_reading hrs hplaced (readn_pending hp)⟩
      · rw [heq]
        refine ⟨rs, [], false, drains_stop hrs (hplaced.trans hnil) ?_⟩
        cases he : (readn .stream ins buf 0 bufSize).exit with
        | full => exact absurd hnil (readn_full (by decide) he)
        | eagain => exact Or.inl ⟨by simp [Readn.again, he], hlast _ (by rw [he]; rfl)⟩
        | eof => exact Or.inr ⟨by simp [Readn.again, he], hlast _ (by rw [he]; rfl)⟩
        | error => exact absurd he h.1
        | pending => exact absurd he hp
      · obtain ⟨he, -⟩ | ⟨-, -, -, rfl⟩ := hlen'
        · exact absurd he h.1
        · obtain ⟨ws, hws, hsent, hend⟩ := writen_calls (readn .stream ins buf 0 bufSize).buf
            (readn .stream ins buf 0 bufSize).placed.length outs 0
            (readn .stream ins buf 0 bufSize).placed.length
          rw [readn_load_zero] at hws hend
          obtain ⟨hnone, heq⟩ | ⟨hret, hlt, heq⟩ := hw
          · have hwaits : ¬Settled (readn .stream ins buf 0 bufSize).placed ws := by
              obtain ⟨hret, -⟩ | ⟨hret, -⟩ | ⟨-, hwaits⟩ := hend
              · cases hnone.symm.trans hret
              · cases hnone.symm.trans hret
              · exact hwaits
            rw [heq]
            exact ⟨rs, [ws], true,
              drains_writing hrs hplaced hlen hws (writen_none hnone) hwaits hsent⟩
          · have hsettled : Settled (readn .stream ins buf 0 bufSize).placed ws := by
              obtain ⟨-, hall⟩ | ⟨-, herror⟩ | ⟨hnone, -⟩ := hend
              · exact Or.inl hall
              · exact Or.inr herror
              · exact absurd hnone hret
            obtain ⟨rs', wss, waits, hrest⟩ := ih _ _ _ hlt h.2
            rw [heq]
            refine ⟨rs ++ rs', ws :: wss, waits, hrest.after hrs hplaced hlen hws hsettled hsent
              (writen_rest_suffix _ _ _ _ _) ?_⟩
            intro he
            rw [writen_complete he hret, readn_load_zero]

/-! ## Events end -/

/-- A `read()` that finds no data. An end of the stream is found again by the next `read()`. -/
def ReadOutcome.Stops (o : ReadOutcome β) : Prop := o = .eagain ∨ o = .eof

theorem suffix_or_of_cons {o o' x : ReadOutcome β} (h : [o, o'] <:+ x :: os) :
    o = x ∧ os = [o'] ∨ [o, o'] <:+ os := by
  rcases List.suffix_cons_iff.mp h with h | h
  · cases h
    exact Or.inl ⟨rfl, rfl⟩
  · exact Or.inr h

theorem readn_stops {kind : Kind} {off nleft : Nat} {o o' : ReadOutcome β} (ho : o.Stops)
    (h : [o, o'] <:+ os) :
    (readn kind os buf off nleft).exit ≠ .pending ∧
      ([o, o'] <:+ (readn kind os buf off nleft).rest ∨
        (readn kind os buf off nleft).rest = [o']) := by
  fun_induction readn kind os buf off nleft with
  | case1 => exact ⟨by simp, Or.inl h⟩
  | case2 => exact absurd (List.suffix_nil.mp h) (List.cons_ne_nil _ _)
  | case3 os buf off nleft ih =>
      rcases suffix_or_of_cons h with ⟨rfl, -⟩ | h
      · rcases ho with ho | ho <;> cases ho
      · exact ih h
  | case8 b bs os buf off nleft hlt ih =>
      rcases suffix_or_of_cons h with ⟨rfl, -⟩ | h
      · rcases ho with ho | ho <;> cases ho
      · exact ih h
  | case9 b bs os buf off nleft hlt =>
      rcases suffix_or_of_cons h with ⟨rfl, -⟩ | h
      · rcases ho with ho | ho <;> cases ho
      · exact ⟨by simp, Or.inl (h.trans (List.suffix_append _ _))⟩
  | _ =>
      rcases suffix_or_of_cons h with ⟨-, h⟩ | h
      · exact ⟨by simp, Or.inr h⟩
      · exact ⟨by simp, Or.inl h⟩

theorem readn_singleton {kind : Kind} {off nleft : Nat} {o : ReadOutcome β} (ho : o.Stops) :
    (readn kind [o] buf off nleft).exit ≠ .pending ∧
      (0 < nleft → (readn kind [o] buf off nleft).placed = []) := by
  cases nleft with
  | zero => exact ⟨by simp [readn], by simp⟩
  | succ n =>
      rcases ho with rfl | rfl
      · exact ⟨by simp [readn], fun _ => rfl⟩
      · exact ⟨by simp [readn], fun _ => rfl⟩

def ReadOutcome.bytes : ReadOutcome β → List β
  | .data bs => bs
  | _ => []

/-- The bytes that are there to be read. -/
def offered (os : List (ReadOutcome β)) : List β := os.flatMap ReadOutcome.bytes

theorem offered_leftover (bs : List β) (os : List (ReadOutcome β)) :
    offered (Kind.stream.leftover bs ++ os) = bs ++ offered os := by
  cases bs <;> rfl

theorem readn_offered (os : List (ReadOutcome β)) (buf : Nat → β) (off nleft : Nat) :
    (readn .stream os buf off nleft).placed ++ offered (readn .stream os buf off nleft).rest =
      offered os := by
  generalize hkind : Kind.stream = kind
  fun_induction readn kind os buf off nleft with
  | case3 os buf off nleft ih => exact ih
  | case8 b bs os buf off nleft hlt ih =>
      simp only [Readn.cons, List.append_assoc, ih]
      rfl
  | case9 b bs os buf off nleft hlt =>
      subst hkind
      rw [offered_leftover, List.cons_append, ← List.append_assoc, List.take_append_drop]
      rfl
  | _ => rfl

/-- After such a `write()` there is less to do for `uct_writen`. -/
def WriteOutcome.decides : WriteOutcome → Bool
  | .eintr => false
  | .eagain => false
  | _ => true

theorem writen_decides (buf : Nat → β) (n : Nat) (outs : List WriteOutcome) (off nleft : Nat) :
    outs.countP WriteOutcome.decides ≤
        (writen buf n outs off nleft).rest.countP WriteOutcome.decides + nleft ∧
      (nleft ≤ outs.countP WriteOutcome.decides → (writen buf n outs off nleft).ret ≠ none) := by
  fun_induction writen buf n outs off nleft with
  | case1 => exact ⟨Nat.le_refl _, fun _ => by simp⟩
  | case2 => exact ⟨Nat.zero_le _, fun h => absurd h (Nat.not_succ_le_zero _)⟩
  | case4 k outs off nleft ih =>
      obtain ⟨hle, hret⟩ := ih
      simp only [Writen.cons, List.countP_cons, WriteOutcome.decides, if_true]
      exact ⟨by omega, fun h => hret (by omega)⟩
  | case5 outs off nleft ih => simpa [List.countP_cons, WriteOutcome.decides] using ih
  | case6 outs off nleft ih => simpa [List.countP_cons, WriteOutcome.decides] using ih
  | _ =>
      simp only [List.countP_cons, WriteOutcome.decides, if_true]
      exact ⟨by omega, fun _ => by simp⟩

/-- Two reads without data and a decisive write for each byte end the event. -/
theorem relayLoop_stops {o o' : ReadOutcome β} (ho : o.Stops) (ho' : o'.Stops)
    (h : [o, o'] <:+ ins ∨ ins = [o'])
    (hbytes : (offered ins).length ≤ outs.countP WriteOutcome.decides) (he : .error ∉ ins) :
    (relayLoop .stream buf ins outs).ending ≠ .pending := by
  induction buf, ins, outs using relayLoop_induction with
  | round buf ins outs ih =>
      rw [error_mem_iff (by decide : 0 < bufSize), not_or] at he
      have hread : (readn .stream ins buf 0 bufSize).exit ≠ .pending := by
        rcases h with h | rfl
        · exact (readn_stops ho h).1
        · exact (readn_singleton ho').1
      have hoffered := congrArg List.length (readn_offered ins buf 0 bufSize)
      rw [List.length_append] at hoffered
      obtain ⟨hp, -⟩ | ⟨-, -, -, heq⟩ | ⟨len, hlen, hw⟩ := relayLoop_cases .stream buf ins outs
      · exact absurd hp hread
      · rw [heq]
        dsimp only
        split <;> simp
      · obtain ⟨herror, -⟩ | ⟨-, -, hne, rfl⟩ := hlen
        · exact absurd herror he.1
        · obtain ⟨hle, hret⟩ := writen_decides (readn .stream ins buf 0 bufSize).buf
            (readn .stream ins buf 0 bufSize).placed.length outs 0
            (readn .stream ins buf 0 bufSize).placed.length
          obtain ⟨hnone, -⟩ | ⟨-, hlt, heq⟩ := hw
          · exact absurd hnone (hret (by omega))
          · rw [heq]
            refine ih _ _ _ hlt ?_ (by omega) he.2
            rcases h with h | rfl
            · exact (readn_stops ho h).2
            · exact absurd ((readn_singleton ho').2 (by decide)) hne

/-! ## Both directions -/

/-- Without a hard read error every event of either direction passes on all bytes read, ends with a
read that found EAGAIN or EOF, and tears the pair down in the second case only. Two reads without
data end it, as soon as enough calls of `write()` accept bytes or fail. -/
theorem event_drains (now : UInt64) (s : Srv) (buf : Nat → β) (ins : List (ReadOutcome β))
    (outs : List WriteOutcome) (h : .error ∉ ins) :
    ∀ t ∈ [epollProcessClientEvent now s buf ins outs, epollProcessUpstreamEvent s buf ins outs],
      (∃ rs wss waits, t.1.Drains ins outs rs wss waits) ∧
      t.2.connectionN = (if t.1.ending = .closed then s.connectionN - 1 else s.connectionN) ∧
      ∀ o o' : ReadOutcome β, o.Stops → o'.Stops → [o, o'] <:+ ins →
        (offered ins).length ≤ outs.countP WriteOutcome.decides → t.1.ending ≠ .pending := by
  have hstops (o o' : ReadOutcome β) (ho : o.Stops) (ho' : o'.Stops) (hsuffix : [o, o'] <:+ ins)
      (hbytes : (offered ins).length ≤ outs.countP WriteOutcome.decides) :
      (relayLoop .stream buf ins outs).ending ≠ .pending :=
    relayLoop_stops ho ho' (Or.inl hsuffix) hbytes h
  intro t ht
  simp only [List.mem_cons, List.not_mem_nil, or_false] at ht
  rcases ht with rfl | rfl
  · exact ⟨relayLoop_drains h, connectionN_clientEvent _ _ _ _ _, hstops⟩
  · exact ⟨relayLoop_drains h, connectionN_disconnect _ _, hstops⟩

/-- Three bytes in two chunks, the first of them written in part, then the end of the stream behind
a partial buffer: the pair is torn down. -/
theorem event_drains_partial :
    let ins : List (ReadOutcome UInt8) := [.data [1, 2], .eintr, .data [3], .eof, .eof]
    let outs : List WriteOutcome := [.part 0, .eagain, .all, .eintr, .error]
    let t := epollProcessClientEvent 7 default (fun _ => 0) ins outs
    (∃ rs wss waits, t.1.Drains ins outs rs wss waits) ∧ t.1.ending ≠ .pending := by
  intro ins outs t
  obtain ⟨hdrains, -, hends⟩ := event_drains 7 default (fun _ => 0) ins outs (by decide) t
    List.mem_cons_self
  exact ⟨hdrains, hends .eof .eof (Or.inr rfl) (Or.inr rfl)
    ⟨[.data [1, 2], .eintr, .data [3]], rfl⟩ (by decide)⟩

end Umicat.Relay
