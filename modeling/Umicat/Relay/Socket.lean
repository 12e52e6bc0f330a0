import Umicat.Base.Buffer

/-!
# Full reads and writes

`uct_readn` and `uct_writen`. What the calls of `read()` and `write()` report is a list of outcomes;
a call of `uct_readn` or `uct_writen` that has used up the list has not returned yet.
-/

namespace Umicat.Relay

open Umicat.Base

variable {β : Type}

/-- What the next `read()` finds. `data bs` is the next part of a byte stream or the next datagram.
`error` is any `errno` but EINTR, EAGAIN and EWOULDBLOCK. -/
inductive ReadOutcome (β : Type)
  | data (bs : List β)
  | eintr
  | eagain
  | eof
  | error
deriving Repr, DecidableEq

/-- What the next `write()` reports: all bytes accepted, at most `k + 1` bytes accepted, or none: a
return value of at most 0, told apart by `errno`. -/
inductive WriteOutcome
  | all
  | part (k : Nat)
  | eintr
  | eagain
  | error
deriving Repr, DecidableEq

inductive Kind
  | stream
  | dgram
deriving Repr, DecidableEq

/-- Bytes that did not fit in the buffer stay in a stream and are lost with a datagram. -/
def Kind.leftover : Kind → List β → List (ReadOutcome β)
  | .stream, [] => []
  | .stream, b :: bs => [.data (b :: bs)]
  | .dgram, _ => []

inductive Exit
  | full
  | eagain
  | eof
  | error
  | pending
deriving Repr, DecidableEq

structure Readn (β : Type) where
  buf : Nat → β
  placed : List β
  exit : Exit
  rest : List (ReadOutcome β)

def Readn.cons (bs : List β) (r : Readn β) : Readn β := { r with placed := bs ++ r.placed }

/-- `uct_readn` with `nleft` bytes to go at offset `off`. -/
def readn (kind : Kind) : List (ReadOutcome β) → (Nat → β) → Nat → Nat → Readn β
  | os, buf, _, 0 => ⟨buf, [], .full, os⟩
  | [], buf, _, _ + 1 => ⟨buf, [], .pending, []⟩
  | .eintr :: os, buf, off, nleft + 1 => readn kind os buf off (nleft + 1)
  | .eagain :: os, buf, _, _ + 1 => ⟨buf, [], .eagain, os⟩
  | .eof :: os, buf, _, _ + 1 => ⟨buf, [], .eof, os⟩
  | .error :: os, buf, _, _ + 1 => ⟨buf, [], .error, os⟩
  | .data [] :: os, buf, _, _ + 1 => ⟨buf, [], .eof, os⟩
  | .data (b :: bs) :: os, buf, off, nleft + 1 =>
      if bs.length < nleft then
        (readn kind os (store buf off (b :: bs)) (off + (bs.length + 1))
          (nleft - bs.length)).cons (b :: bs)
      else
        ⟨store buf off (b :: bs.take nleft), b :: bs.take nleft, .full,
          kind.leftover (bs.drop nleft) ++ os⟩

def Readn.ret (r : Readn β) : Option Int :=
  match r.exit with
  | .pending => none
  | .error => some (-1)
  | _ => some r.placed.length

/-- The test of `errno` behind a call of `uct_readn`, which clears `errno` before every `read()`. -/
def Readn.again (r : Readn β) : Bool := r.exit = .eagain

structure Writen (β : Type) where
  sent : List (List β)
  ret : Option Int
  rest : List WriteOutcome

def Writen.cons (bs : List β) (w : Writen β) : Writen β := { w with sent := bs :: w.sent }

/-- `uct_writen` for `n` bytes with `nleft` of them to go at offset `off`. -/
def writen (buf : Nat → β) (n : Nat) : List WriteOutcome → Nat → Nat → Writen β
  | outs, _, 0 => ⟨[], some n, outs⟩
  | [], _, _ + 1 => ⟨[], none, []⟩
  | .all :: outs, off, nleft + 1 => ⟨[load buf off (nleft + 1)], some n, outs⟩
  | .part k :: outs, off, nleft + 1 =>
      (writen buf n outs (off + min (k + 1) (nleft + 1)) (nleft + 1 - min (k + 1) (nleft + 1))).cons
        (load buf off (min (k + 1) (nleft + 1)))
  | .eintr :: outs, off, nleft + 1 => writen buf n outs off (nleft + 1)
  | .eagain :: outs, off, nleft + 1 => writen buf n outs off (nleft + 1)
  | .error :: outs, _, _ + 1 => ⟨[], some (-1), outs⟩

end Umicat.Relay
