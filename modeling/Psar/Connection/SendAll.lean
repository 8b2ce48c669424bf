import Psar.Connection.RecvAll

/-!
# The cursors of a transfer

`send_all` of `network.c` on any sequence of results of `send`, next to `Recv_all`. A message is
sent as its size and its bytes, and each of the two goes through `send_all` here and `Recv_all` at
the other end. The sizes are of type `size_t`; `seek` and `ret` are of type `int` in both loops.
-/

namespace Transfer

open Receive (Result Loop received)

/-- One turn of the loop of `send_all` in which `send` returns `r`. -/
def sendTurn (size : BitVec 64) (seek : ℤ) (r : Result) : Loop :=
  if seek < 0 then .undefined
  else if r.ret = -1 then .returned (-1)
  else if 2 ^ 31 ≤ seek + r.ret then .undefined
  else if 0 < size - BitVec.ofInt 64 (seek + r.ret) then .running (seek + r.ret)
  else .returned 0

/-- A loop around `send` or `recv` after `k` turns. -/
def run (turn : ℤ → Result → Loop) (results : ℕ → Result) : ℕ → Loop
  | 0 => .running 0
  | k + 1 =>
    match run turn results k with
    | .running seek => turn seek (results k)
    | l => l

/-- `send_all` after `k` turns, where `send i` is what the call of `send` in turn `i` returns. -/
def sendAll (size : BitVec 64) (send : ℕ → Result) : ℕ → Loop := run (sendTurn size) send

/-! ## What fits -/

/-- No count is above what is asked for. -/
def Asked (size : BitVec 64) (results : ℕ → Result) : Prop :=
  ∀ k n, results k = .count n → received results k + n ≤ size.toNat

/-- `ret` and `seek` stay below `2 ^ 31`, and nothing in front of the data is read or written. -/
structure Fits (loop : ℕ → Loop) (results : ℕ → Result) : Prop where
  ret : ∀ k seek n, loop k = .running seek → results k = .count n → (n : ℤ) < 2 ^ 31
  seek : ∀ k seek n, loop k = .running seek → results k = .count n → seek + n < 2 ^ 31
  defined : ∀ k, loop k ≠ .undefined

/-- The cursors fit at both ends, whatever `send` and `recv` return. -/
def SizeFits (size : BitVec 64) : Prop :=
  ∀ results, Asked size results →
    Fits (sendAll size results) results ∧ Fits (Receive.recvAll size results) results

/-- The size of a message, which has 8 bytes, and the message. -/
def MessageFits (size : BitVec 64) : Prop := SizeFits 8 ∧ SizeFits size

/-! ## A turn -/

/-- What the two loops have in common: bytes that fit into `seek` are added to it, and the loop goes
on while more are wanted. -/
structure Adds (size : BitVec 64) (turn : ℤ → Result → Loop) : Prop where
  more : ∀ (seek : ℕ) n, 0 < n → seek + n < size.toNat → seek + n < 2 ^ 31 →
    turn seek (.count n) = .running (seek + n : ℕ)
  step : ∀ (seek : ℕ) (r : Result), seek + r.bytes ≤ size.toNat → seek + r.bytes < 2 ^ 31 →
    turn seek r = .running (seek + r.bytes : ℕ) ∨ ∃ value, turn seek r = .returned value

/-- Two results of `2 ^ 30` bytes, and then an error. -/
def twoHalves (k : ℕ) : Result := if k < 2 then .count (2 ^ 30) else .error

end Transfer
