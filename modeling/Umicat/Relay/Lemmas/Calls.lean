import Umicat.Relay.Lemmas.Socket

/-!
# Calls of `read()` and `write()`

What a full read and a full write do, told by the calls that they make.
-/

namespace Umicat.Relay

open Umicat.Base

variable {β : Type}

/-! ## Calls of `read()` -/

/-- What a call of `read()` on a stream reports. -/
inductive Report (β : Type)
  | bytes (bs : List β)
  | eintr
  | eagain
  | eof
deriving Repr, DecidableEq

def Report.received : Report β → List β
  | .bytes bs => bs
  | _ => []

def received (rs : List (Report β)) : List β := rs.flatMap Report.received

/-- `read(fd, buf, n)`: its report, unless it fails. -/
def sysRead (kind : Kind) (n : Nat) : List (ReadOutcome β) → Option (Report β × List (ReadOutcome β))
  | .data (b :: bs) :: os =>
      some (.bytes ((b :: bs).take n), kind.leftover ((b :: bs).drop n) ++ os)
  | .data [] :: os => some (.eof, os)
  | .eintr :: os => some (.eintr, os)
  | .eagain :: os => some (.eagain, os)
  | .eof :: os => some (.eof, os)
  | .error :: _ => none
  | [] => none

/-- Successive calls of `read()`, each for the bytes that are still missing. -/
inductive ReadCalls (kind : Kind) :
    Nat → List (ReadOutcome β) → List (Report β) → List (ReadOutcome β) → Prop
  | nil {n os} : ReadCalls kind n os [] os
  | cons {n os os' os'' r rs} : 0 < n → sysRead kind n os = some (r, os') →
      ReadCalls kind (n - r.received.length) os' rs os'' → ReadCalls kind n os (r :: rs) os''

/-- Successive calls of `read()`. A call takes any number of the bytes that are there, at least
one. -/
inductive Reads : List (ReadOutcome β) → List (Report β) → List (ReadOutcome β) → Prop
  | nil {os} : Reads os [] os
  | bytes {os os' b bs more rs} : Reads (Kind.stream.leftover more ++ os) rs os' →
      Reads (.data (b :: bs ++ more) :: os) (.bytes (b :: bs) :: rs) os'
  | eintr {os os' rs} : Reads os rs os' → Reads (.eintr :: os) (.eintr :: rs) os'
  | eagain {os os' rs} : Reads os rs os' → Reads (.eagain :: os) (.eagain :: rs) os'
  | eof {os os' rs} : Reads os rs os' → Reads (.eof :: os) (.eof :: rs) os'
  | empty {os os' rs} : Reads os rs os' → Reads (.data [] :: os) (.eof :: rs) os'

/-! ## Calls of `write()` -/

/-- What a call of `write()` reports. -/
inductive WriteReport (β : Type)
  | bytes (bs : List β)
  | eintr
  | eagain
  | error
deriving Repr, DecidableEq

def WriteReport.accepted : WriteReport β → List β
  | .bytes bs => bs
  | _ => []

def accepted (ws : List (WriteReport β)) : List β := ws.flatMap WriteReport.accepted

/-- `write(fd, buf, n)` with `bs` in the buffer. -/
def sysWrite (bs : List β) : List WriteOutcome → Option (WriteReport β × List WriteOutcome)
  | .all :: os => some (.bytes bs, os)
  | .part k :: os => some (.bytes (bs.take (k + 1)), os)
  | .eintr :: os => some (.eintr, os)
  | .eagain :: os => some (.eagain, os)
  | .error :: os => some (.error, os)
  | [] => none

/-- Successive calls of `write()`, each for the bytes that were not accepted yet. -/
inductive WriteCalls :
    List β → List WriteOutcome → List (WriteReport β) → List WriteOutcome → Prop
  | nil {bs os} : WriteCalls bs os [] os
  | cons {bs os os' os'' w ws} : bs ≠ [] → sysWrite bs os = some (w, os') →
      WriteCalls (bs.drop w.accepted.length) os' ws os'' → WriteCalls bs os (w :: ws) os''

/-- The calls of `write()` that were made for `bs` are enough for `uct_writen` to return. -/
def Settled (bs : List β) (ws : List (WriteReport β)) : Prop :=
  accepted ws = bs ∨ ws.getLast? = some .error

/-- Successive calls of `uct_writen`. The last of them may be waiting for a `write()`. -/
inductive Writes : Bool → List (List β) → List WriteOutcome → List (List (WriteReport β)) →
    List WriteOutcome → Prop
  | nil {os} : Writes false [] os [] os
  | returns {waits bs bss os os' os'' ws wss} : WriteCalls bs os ws os' → Settled bs ws →
      Writes waits bss os' wss os'' → Writes waits (bs :: bss) os (ws :: wss) os''
  | waits {bs os ws} : WriteCalls bs os ws [] → ¬Settled bs ws → Writes true [bs] os [ws] []

/-! ## What a full read and a full write call -/

variable {buf : Nat → β} {ins os os' os'' : List (ReadOutcome β)} {outs : List WriteOutcome}

theorem Reads.append {rs rs' : List (Report β)} (h : Reads os rs os') (h' : Reads os' rs' os'') :
    Reads os (rs ++ rs') os'' := by
  induction h with
  | nil => exact h'
  | bytes _ ih => exact .bytes (ih h')
  | eintr _ ih => exact .eintr (ih h')
  | eagain _ ih => exact .eagain (ih h')
  | eof _ ih => exact .eof (ih h')
  | empty _ ih => exact .empty (ih h')

/-- The report of `read()` that makes `uct_readn` stop short. -/
def Exit.report : Exit → Option (Report β)
  | .eagain => some .eagain
  | .eof => some .eof
  | _ => none

/-- The calls of `read()` in `uct_readn`, and the last of them when it stopped short. -/
theorem readn_calls (kind : Kind) (os : List (ReadOutcome β)) (buf : Nat → β) (off nleft : Nat)
    (h : (readn kind os buf off nleft).exit ≠ .error) :
    ∃ rs, ReadCalls kind nleft os rs (readn kind os buf off nleft).rest ∧
      received rs = (readn kind os buf off nleft).placed ∧
      ∀ r, (readn kind os buf off nleft).exit.report = some r → rs.getLast? = some r := by
  fun_induction readn kind os buf off nleft with
  | case1 => exact ⟨[], .nil, rfl, by simp [Exit.report]⟩
  | case2 => exact ⟨[], .nil, rfl, by simp [Exit.report]⟩
  | case3 os buf off nleft ih =>
      obtain ⟨rs, hrs, hbytes, hlast⟩ := ih h
      refine ⟨.eintr :: rs, .cons (Nat.succ_pos _) rfl hrs, hbytes, fun r hr => ?_⟩
      simp [List.getLast?_cons, hlast r hr]
  | case4 => exact ⟨[.eagain], .cons (Nat.succ_pos _) rfl .nil, rfl, by simp [Exit.report]⟩
  | case5 => exact ⟨[.eof], .cons (Nat.succ_pos _) rfl .nil, rfl, by simp [Exit.report]⟩
  | case6 => exact absurd rfl h
  | case7 => exact ⟨[.eof], .cons (Nat.succ_pos _) rfl .nil, rfl, by simp [Exit.report]⟩
  | case8 b bs os buf off nleft hlt ih =>
      obtain ⟨rs, hrs, hbytes, hlast⟩ := ih h
      have hread : sysRead kind (nleft + 1) (.data (b :: bs) :: os) =
          some (.bytes (b :: bs), os) := by
        have hle : (b :: bs).length ≤ nleft + 1 := by simpa using Nat.le_of_lt hlt
        rw [sysRead, List.take_of_length_le hle, List.drop_of_length_le hle]
        cases kind <;> rfl
      refine ⟨.bytes (b :: bs) :: rs, .cons (Nat.succ_pos _) hread ?_, ?_, fun r hr => ?_⟩
      · have hleft : nleft + 1 - (Report.bytes (b :: bs)).received.length = nleft - bs.length := by
          simp only [Report.received, List.length_cons]
          omega
        rw [hleft]
        exact hrs
      · simp only [Readn.cons, ← hbytes]
        rfl
      · simp [List.getLast?_cons, hlast r hr]
  | case9 b bs os buf off nleft hlt =>
      exact ⟨[.bytes (b :: bs.take nleft)], .cons (Nat.succ_pos _) rfl .nil,
        by simp [received, Report.received], by simp [Exit.report]⟩

theorem ReadCalls.reads {n : Nat} {rs : List (Report β)} (h : ReadCalls .stream n os rs os') :
    Reads os rs os' := by
  induction h with
  | nil => exact .nil
  | @cons n os os' os'' r rs hn hread _ ih =>
      cases os with
      | nil => cases hread
      | cons o os =>
          cases o with
          | eintr =>
              cases hread
              exact .eintr ih
          | eagain =>
              cases hread
              exact .eagain ih
          | eof =>
              cases hread
              exact .eof ih
          | error => cases hread
          | data bs =>
              cases bs with
              | nil =>
                  cases hread
                  exact .empty ih
              | cons b bs =>
                  obtain ⟨n, rfl⟩ := Nat.exists_eq_succ_of_ne_zero (Nat.ne_of_gt hn)
                  cases hread
                  have hread : Reads (.data (b :: bs.take n ++ bs.drop n) :: os) _ _ := .bytes ih
                  rwa [List.cons_append, List.take_append_drop] at hread

theorem readn_reads (os : List (ReadOutcome β)) (buf : Nat → β) (off nleft : Nat)
    (h : (readn .stream os buf off nleft).exit ≠ .error) :
    ∃ rs, Reads os rs (readn .stream os buf off nleft).rest ∧
      received rs = (readn .stream os buf off nleft).placed ∧
      ∀ r, (readn .stream os buf off nleft).exit.report = some r → rs.getLast? = some r := by
  obtain ⟨rs, hrs, hbytes, hlast⟩ := readn_calls .stream os buf off nleft h
  exact ⟨rs, hrs.reads, hbytes, hlast⟩

theorem getLast?_cons_error {w : WriteReport β} {ws : List (WriteReport β)} (h : w ≠ .error) :
    (w :: ws).getLast? = some .error ↔ ws.getLast? = some .error := by
  cases ws with
  | nil => simp [h]
  | cons v ws => simp [List.getLast?_cons_cons]

/-- The calls of `write()` in `uct_writen`, and how they end. -/
theorem writen_calls (buf : Nat → β) (n : Nat) (outs : List WriteOutcome) (off nleft : Nat) :
    ∃ ws, WriteCalls (load buf off nleft) outs ws (writen buf n outs off nleft).rest ∧
      accepted ws = (writen buf n outs off nleft).sent.flatten ∧
      ((writen buf n outs off nleft).ret = some ↑n ∧ accepted ws = load buf off nleft ∨
        (writen buf n outs off nleft).ret = some (-1) ∧ ws.getLast? = some .error ∨
        (writen buf n outs off nleft).ret = none ∧ ¬Settled (load buf off nleft) ws) := by
  fun_induction writen buf n outs off nleft with
  | case1 => exact ⟨[], .nil, rfl, Or.inl ⟨rfl, rfl⟩⟩
  | case2 off nleft =>
      refine ⟨[], .nil, rfl, Or.inr (Or.inr ⟨rfl, ?_⟩)⟩
      rintro (h | h)
      · exact load_succ_ne_nil buf off nleft h.symm
      · cases h
  | case3 outs off nleft =>
      exact ⟨[.bytes (load buf off (nleft + 1))], .cons (load_succ_ne_nil _ _ _) rfl .nil,
        by simp [accepted, WriteReport.accepted],
        Or.inl ⟨rfl, by simp [accepted, WriteReport.accepted]⟩⟩
  | case4 k outs off nleft ih =>
      obtain ⟨ws, hws, hsent, hend⟩ := ih
      have hload : load buf off (nleft + 1) = load buf off (min (k + 1) (nleft + 1)) ++
          load buf (off + min (k + 1) (nleft + 1)) (nleft + 1 - min (k + 1) (nleft + 1)) := by
        rw [← load_add]
        exact congrArg _ (by omega)
      have hcons (vs : List (WriteReport β)) :
          accepted (.bytes (load buf off (min (k + 1) (nleft + 1))) :: vs) =
            load buf off (min (k + 1) (nleft + 1)) ++ accepted vs := rfl
      have hwrite : sysWrite (load buf off (nleft + 1)) (.part k :: outs) =
          some (.bytes (load buf off (min (k + 1) (nleft + 1))), outs) := by
        rw [sysWrite, take_load]
      refine ⟨_ :: ws, .cons (load_succ_ne_nil _ _ _) hwrite ?_, ?_, ?_⟩
      · rw [WriteReport.accepted, length_load, drop_load]
        exact hws
      · rw [hcons, hsent]
        rfl
      · rw [Settled, hcons, hload, List.append_cancel_left_eq, getLast?_cons_error (by simp)]
        exact hend
  | case5 outs off nleft ih =>
      obtain ⟨ws, hws, hsent, hend⟩ := ih
      refine ⟨.eintr :: ws, .cons (load_succ_ne_nil _ _ _) rfl hws, hsent, ?_⟩
      rw [Settled, getLast?_cons_error (by simp)]
      exact hend
  | case6 outs off nleft ih =>
      obtain ⟨ws, hws, hsent, hend⟩ := ih
      refine ⟨.eagain :: ws, .cons (load_succ_ne_nil _ _ _) rfl hws, hsent, ?_⟩
      rw [Settled, getLast?_cons_error (by simp)]
      exact hend
  | case7 outs off nleft =>
      exact ⟨[.error], .cons (load_succ_ne_nil _ _ _) rfl .nil, rfl, Or.inr (Or.inl ⟨rfl, rfl⟩)⟩

end Umicat.Relay
