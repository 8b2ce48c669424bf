import Mathlib

/-!
# The loop of `Recv_all`

`Recv_all` of `network.c` on any sequence of results of `recv`. `seek` and `ret` are of type `int`:
the count that `recv` returns is converted to `int`, and a sum that would overflow is undefined in
C.
-/

namespace Receive

/-- What `recv` returns: a number of bytes, 0, or -1. -/
inductive Result where
  | count (n : ℕ)
  | zero
  | error
  deriving DecidableEq, Repr

/-- The value of `ret`. -/
def Result.ret : Result → ℤ
  | .count n => (BitVec.ofNat 32 n).toInt
  | .zero => 0
  | .error => -1

/-- Where a call of `Recv_all` is: before the next `recv`, or at its end. -/
inductive Loop where
  | running (seek : ℤ)
  | returned (value : ℤ)
  /-- `seek` overflows, or `recv` is to write in front of `data`. -/
  | undefined
  deriving DecidableEq, Repr

/-- One turn of the loop in which `recv` returns `r`. -/
def turn (size : BitVec 64) (seek : ℤ) (r : Result) : Loop :=
  if seek < 0 then .undefined
  else if r.ret = 0 ∧ seek = 0 then .returned seek
  else if r.ret = -1 then .returned (-1)
  else if 2 ^ 31 ≤ seek + r.ret then .undefined
  else if 0 < size - BitVec.ofInt 64 (seek + r.ret) then .running (seek + r.ret)
  else .returned (seek + r.ret)

/-- `Recv_all` after `k` turns, where `recv i` is what the call of `recv` in turn `i` returns. -/
def recvAll (size : BitVec 64) (recv : ℕ → Result) : ℕ → Loop
  | 0 => .running 0
  | k + 1 =>
    match recvAll size recv k with
    | .running seek => turn size seek (recv k)
    | l => l

/-- `Recv_all` returns after finitely many turns. -/
def Returns (size : BitVec 64) (recv : ℕ → Result) : Prop :=
  ∃ k value, recvAll size recv k = .returned value

/-! ## The results of `recv` -/

def Result.bytes : Result → ℕ
  | .count n => n
  | _ => 0

/-- The number of bytes received in the first `k` turns. -/
def received (recv : ℕ → Result) : ℕ → ℕ
  | 0 => 0
  | k + 1 => received recv k + (recv k).bytes

/-- After `k` turns, in which bytes were received, more bytes are wanted. -/
def Reached (size : BitVec 64) (recv : ℕ → Result) (k : ℕ) : Prop :=
  (∀ i < k, ∃ n, recv i = .count n) ∧ (k = 0 ∨ received recv k < size.toNat)

/-- A count is positive and not above what is asked for, and after the end of the stream there is
nothing more. -/
structure Possible (size : BitVec 64) (recv : ℕ → Result) : Prop where
  count : ∀ k n, Reached size recv k → recv k = .count n →
    0 < n ∧ n ≤ size.toNat - received recv k
  zero : ∀ k, recv k = .zero → ∀ i ≥ k, recv i = .zero

/-- The stream does not end behind some of the bytes that are wanted, and no more than `INT_MAX`
bytes are received. -/
def Clean (size : BitVec 64) (recv : ℕ → Result) : Prop :=
  ∀ k, Reached size recv k → (recv k = .zero → received recv k = 0) ∧
    ∀ n, recv k = .count n → received recv k + n < 2 ^ 31

/-- `recv` returns `n` bytes, and then the stream has ended. -/
def endsAfter (n : ℕ) (k : ℕ) : Result := if k = 0 then .count n else .zero

end Receive
