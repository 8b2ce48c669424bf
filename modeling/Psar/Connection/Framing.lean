import Psar.Library.Framing
import Psar.Library.Network

/-!
# Frames on one connection

The bytes of one connection (`send_all`, `send_message_internal`, `Recv_all` and the loop of
`server_thread` in `network.c`). A message is sent as its size, a `size_t`, and its bytes, both in a
loop around `send`, inside `lock_send`. The receiver alternates a `Recv_all` of the size with a
`Recv_all` of the body. One turn of a loop is one step; how many bytes `send` or `recv` transfers is
part of the step, between one byte and what the call asks for.

`seek` is an `int` in both loops. A step that would make it overflow is undefined in C and is not
enabled here.
-/

namespace Connection

/-! ## The size of a message -/

/-- The `width` lowest bytes of `n`, least significant first. -/
def leBytes : ℕ → ℕ → List UInt8
  | 0, _ => []
  | width + 1, n => UInt8.ofNat n :: leBytes width (n / 256)

def ofLeBytes (bs : List UInt8) : ℕ := Nat.ofDigits 256 (bs.map UInt8.toNat)

theorem length_leBytes (width n : ℕ) : (leBytes width n).length = width := by
  induction width generalizing n with
  | zero => rfl
  | succ width ih => simp [leBytes, ih]

theorem ofLeBytes_leBytes (width n : ℕ) : ofLeBytes (leBytes width n) = n % 256 ^ width := by
  induction width generalizing n with
  | zero => simp [ofLeBytes, leBytes, Nat.mod_one]
  | succ width ih =>
    have hrest : Nat.ofDigits 256 ((leBytes width (n / 256)).map UInt8.toNat) =
        n / 256 % 256 ^ width := ih (n / 256)
    simp only [ofLeBytes, leBytes, List.map_cons, Nat.ofDigits_cons, hrest]
    rw [pow_succ', Nat.mod_mul]
    simp

/-- `message_size`, a `size_t` of 8 bytes. -/
def sizeHeader : Framing.Header UInt8 where
  width := 8
  bound := 2 ^ 64
  encode := leBytes 8
  decode := ofLeBytes
  width_pos := by decide
  length_encode := length_leBytes 8
  decode_encode := by
    intro n hn
    rw [ofLeBytes_leBytes]
    exact Nat.mod_eq_of_lt hn

/-- `seek += ret`, where `seek` is an `int`. -/
def addSeek (seek ret : ℕ) : Option ℕ := if seek + ret < 2 ^ 31 then some (seek + ret) else none

/-! ## `send_message_internal` -/

/-- Where a thread is in `send_message_internal`: it waits for `lock_send`, it is in `send_all` of
the size or of the body, or it is about to release `lock_send`. -/
inductive Stage where
  | lock
  | size (seek : ℕ)
  | body (seek : ℕ)
  | unlock
  deriving DecidableEq, Repr

structure Call where
  message : List UInt8
  stage : Stage
  deriving DecidableEq, Repr

/-- One turn of the loop of `send_all` in which `send` returns `ret`: the bytes that go out and the
new `seek`. -/
def sendAll (data : List UInt8) (seek ret : ℕ) : Option (List UInt8 × ℕ) :=
  if 1 ≤ ret ∧ ret ≤ data.length - seek then
    (addSeek seek ret).map fun seek' => ((data.drop seek).take ret, seek')
  else none

/-- A turn of one of the two `send_all` of `send_message_internal`. -/
def Call.send (c : Call) (ret : ℕ) : Option (Call × List UInt8) :=
  match c.stage with
  | .size seek =>
    (sendAll (sizeHeader.encode c.message.length) seek ret).map fun r =>
      ({ c with stage := if 0 < 8 - r.2 then .size r.2 else .body 0 }, r.1)
  | .body seek =>
    (sendAll c.message seek ret).map fun r =>
      ({ c with stage := if 0 < c.message.length - r.2 then .body r.2 else .unlock }, r.1)
  | _ => none

/-! ## `Recv_all` -/

/-- One turn of the loop of `Recv_all` in which `recv` returns `ret` of the bytes that have arrived;
`seek` is the number of bytes read so far. When the loop ends, `server_thread` goes on from the size
to the body, and from the body to the size of the next message. -/
def recvAll (r : Framing.Reader UInt8) (arrived : List UInt8) (ret : ℕ) :
    Option (Framing.Reader UInt8) :=
  if 1 ≤ ret ∧ ret ≤ sizeHeader.wanted r - r.data.length ∧ ret ≤ arrived.length then
    (addSeek r.data.length ret).map fun _ =>
      sizeHeader.next { r with data := r.data ++ arrived.take ret }
  else none

/-! ## The connection -/

/-- The threads that send on the connection, and its receiver. -/
structure Conn (Thread : Type) where
  /-- The thread that holds `lock_send`. -/
  lockSend : Option Thread
  /-- The calls of `send_message_internal` that have not returned. -/
  call : Thread → Option Call
  /-- All bytes that `send` has accepted so far. -/
  stream : List UInt8
  /-- How many of them `recv` has returned. -/
  pos : ℕ
  server : Framing.Reader UInt8
  /-- The messages whose senders have taken `lock_send`, in that order. -/
  taken : List (List UInt8)

inductive Event (Thread : Type) where
  /-- The thread calls `send_message_internal`. -/
  | call (t : Thread) (message : List UInt8)
  /-- The thread takes `lock_send`. -/
  | lock (t : Thread)
  /-- `send` returns `ret` in the thread. -/
  | send (t : Thread) (ret : ℕ)
  /-- The thread releases `lock_send` and returns. -/
  | unlock (t : Thread)
  /-- `recv` returns `ret` in `server_thread`. -/
  | recv (ret : ℕ)
  deriving DecidableEq, Repr

variable {Thread : Type} [DecidableEq Thread]

def initConn : Conn Thread := ⟨none, fun _ => none, [], 0, .start, []⟩

def step (s : Conn Thread) : Event Thread → Option (Conn Thread)
  | .call t message =>
    match s.call t with
    | none => some { s with call := Function.update s.call t (some ⟨message, .lock⟩) }
    | some _ => none
  | .lock t =>
    match s.lockSend, s.call t with
    | none, some ⟨message, .lock⟩ => some { s with
        lockSend := some t
        call := Function.update s.call t (some ⟨message, .size 0⟩)
        taken := s.taken ++ [message] }
    | _, _ => none
  | .send t ret =>
    (s.call t).bind fun c => (c.send ret).map fun r => { s with
      call := Function.update s.call t (some r.1)
      stream := s.stream ++ r.2 }
  | .unlock t =>
    match s.call t with
    | some ⟨_, .unlock⟩ => some { s with lockSend := none, call := Function.update s.call t none }
    | _ => none
  | .recv ret =>
    (recvAll s.server (s.stream.drop s.pos) ret).map fun r => { s with
      server := r
      pos := s.pos + ret }

/-- The messages for which `send_message_internal` is called. -/
def called : List (Event Thread) → List (List UInt8)
  | [] => []
  | .call _ message :: es => message :: called es
  | _ :: es => called es

/-- The sizes of the messages: from one byte to `INT_MAX`. -/
def sizeOk : Event Thread → Bool
  | .call _ message => decide (1 ≤ message.length ∧ message.length ≤ 2 ^ 31 - 1)
  | _ => true

def isCall : Event Thread → Bool
  | .call _ _ => true
  | _ => false

/-- All calls have returned and all bytes have been received. -/
def Conn.Done (s : Conn Thread) : Prop := (∀ t, s.call t = none) ∧ s.pos = s.stream.length

/-! ## The invariant -/

/-- What a call has still to write. -/
def Call.rest (c : Call) : List UInt8 :=
  match c.stage with
  | .lock => []
  | .size seek => (sizeHeader.encode c.message.length).drop seek ++ c.message
  | .body seek => c.message.drop seek
  | .unlock => []

/-- The loop of `send_all` has something left to write. -/
def Call.Running (c : Call) : Prop :=
  match c.stage with
  | .size seek => seek < 8
  | .body seek => seek < c.message.length
  | _ => True

/-- What the thread that holds `lock_send` has still to write. -/
def Conn.rest (s : Conn Thread) : List UInt8 :=
  match s.lockSend with
  | none => []
  | some t => (s.call t).elim [] Call.rest

/-- The frames of the messages, in the order of `lock_send`, are on the stream, the last one as far
as its sender has got; and the receiver is where the bytes that it has read take it. -/
structure Inv (s : Conn Thread) : Prop where
  lock : ∀ t, s.lockSend = some t ↔ ∃ c, s.call t = some c ∧ c.stage ≠ .lock
  running : ∀ t, ∀ c ∈ s.call t, c.Running
  sizes : ∀ t, ∀ c ∈ s.call t, 1 ≤ c.message.length ∧ c.message.length ≤ 2 ^ 31 - 1
  taken : ∀ m ∈ s.taken, 1 ≤ m.length ∧ m.length ≤ 2 ^ 31 - 1
  frames : s.stream ++ s.rest = sizeHeader.frames s.taken
  pos : s.pos ≤ s.stream.length
  server : s.server = (s.stream.take s.pos).foldl sizeHeader.feed .start

/-- The message `m` of a call that waits for `lock_send`. -/
def waiting (m : List UInt8) : Option Call → ℕ
  | some ⟨message, .lock⟩ => if message = m then 1 else 0
  | _ => 0

/-! ## The work left -/

/-- How many steps a call can still take, and the receiver for its bytes. -/
def Call.work (c : Call) : ℕ :=
  match c.stage with
  | .lock => 2 * (8 + c.message.length) + 2
  | .unlock => 1
  | _ => 2 * c.rest.length + 1

/-- A bound on the number of steps until all messages are received. -/
def Conn.work [Fintype Thread] (s : Conn Thread) : ℕ :=
  ∑ t, (s.call t).elim 0 Call.work + (s.stream.length - s.pos)

end Connection
