import Psar.Connection.RecvAll
import Psar.Core.SendState

/-!
# The frames that `server_thread` accepts

One connection of `server_thread`: `Recv_all` of the size, `malloc`, `Recv_all` of the message, and
what follows. The peer has sent `left`, and then the stream ends or fails. One call of `recv` is one
step; how much of what it could return it does return is part of the step.
-/

namespace Receive

open Connection (ofLeBytes)
open SendState (sizeofMessage)

/-- How the stream goes on behind its last byte. -/
inductive Ending where
  | eof
  | error
  deriving DecidableEq, Repr

/-- What surrounds the connection: how the stream ends, whether `malloc` returns memory of a size,
and what that memory holds. -/
structure Env where
  ending : Ending
  malloc : ℕ → Bool
  garbage : ℕ → UInt8

/-- The end of `sender` in a `struct message`. -/
def endofSender : ℕ := 60

/-- `NUMBER_OF_MSG_TYPE`. -/
def numberOfMsgType : ℕ := 22

/-- What `server_thread` is doing with the connection. -/
inductive Part where
  /-- `Recv_all` of `message_size`. -/
  | size
  /-- `Recv_all` of the message. -/
  | body (messageSize : ℕ)
  | closed
  /-- It has read outside the memory of the message, or `seek` has overflowed. -/
  | undefined
  deriving DecidableEq, Repr

/-- A message behind which `server_thread` has gone on to the next one. -/
structure Frame where
  messageSize : ℕ
  /-- The bytes that have been received into its buffer. -/
  data : List UInt8
  /-- `add_connection` has read the buffer, and `exec_handler` is started on it. If not, the type of
  the message is unknown. -/
  started : Bool
  deriving DecidableEq, Repr

structure State where
  /-- The bytes of the stream that have not been received. -/
  left : List UInt8
  part : Part
  /-- What the current `Recv_all` has received. -/
  data : List UInt8
  frames : List Frame
  deriving DecidableEq, Repr

/-- A new connection. -/
def State.start (stream : List UInt8) : State := ⟨stream, .size, [], []⟩

/-- The largest count that one `recv` returns. -/
def maxCount : ℕ := 0x7ffff000

/-- `recv` of `asked` bytes, `chunk` of which have arrived at least. Nothing can be written to a
buffer that is `NULL`. -/
def recv (ending : Ending) (null : Bool) (left : List UInt8) (asked chunk : ℕ) : Result :=
  if asked = 0 then .zero
  else if left = [] then
    match ending with
    | .eof => .zero
    | .error => .error
  else if null then .error
  else .count (min (max 1 chunk) (min (min asked left.length) maxCount))

/-- What follows the `Recv_all` of a message, unless it has failed. -/
def dispatch (env : Env) (messageSize : ℕ) (s : State) : State :=
  if ¬env.malloc messageSize ∨ messageSize < 8 then { s with part := .undefined }
  else
    let message := Buffer.overwrite ((List.range messageSize).map env.garbage) 0 s.data
    if numberOfMsgType ≤ ofLeBytes (message.take 8) then
      { s with part := .size, data := [], frames := s.frames ++ [⟨messageSize, s.data, false⟩] }
    else if messageSize < endofSender then { s with part := .undefined }
    else { s with part := .size, data := [], frames := s.frames ++ [⟨messageSize, s.data, true⟩] }

/-- The bytes that the current `Recv_all` is to receive. -/
def wanted : Part → ℕ
  | .size => 8
  | .body messageSize => messageSize
  | _ => 0

/-- What follows a `Recv_all` that has returned `value`. -/
def finish (env : Env) (s : State) (value : ℤ) : State :=
  match s.part with
  | .size =>
    if value = -1 ∨ value = 0 then { s with part := .closed }
    else { s with part := .body (ofLeBytes s.data), data := [] }
  | .body messageSize =>
    if value = -1 then { s with part := .closed } else dispatch env messageSize s
  | _ => s

/-- The buffer of the current `Recv_all` is `NULL`. -/
def isNull (env : Env) : Part → Bool
  | .body messageSize => !env.malloc messageSize
  | _ => false

/-- One call of `recv`. -/
def step (env : Env) (chunk : ℕ) (s : State) : State :=
  if s.part = .closed ∨ s.part = .undefined then s
  else
    let r := recv env.ending (isNull env s.part) s.left (wanted s.part - s.data.length) chunk
    let s' := { s with left := s.left.drop r.bytes, data := s.data ++ s.left.take r.bytes }
    match turn (BitVec.ofNat 64 (wanted s.part)) s.data.length r with
    | .running _ => s'
    | .returned value => finish env s' value
    | .undefined => { s' with part := .undefined }

/-- The connection after `k` calls of `recv`. -/
def after (env : Env) (chunk : ℕ → ℕ) : ℕ → State → State
  | 0, s => s
  | k + 1, s => after env (fun i => chunk (i + 1)) k (step env (chunk 0) s)

/-! ## What the server is for -/

/-- The announced size is that of a message at least, and all announced bytes are there. -/
def Frame.Complete (f : Frame) : Prop := sizeofMessage ≤ f.messageSize ∧
  f.data.length = f.messageSize

/-- However the bytes arrive, `server_thread` goes on only behind complete frames, and at the end of
the stream, or before, it closes the connection. -/
def Safe (env : Env) (s : State) : Prop :=
  ∀ chunk : ℕ → ℕ, (∀ k, ∀ f ∈ (after env chunk k s).frames, f.Complete) ∧
    ∃ k, (after env chunk k s).part = .closed

/-- Streams of complete frames that end or fail in a place where `server_thread` expects it. -/
inductive CleanStream (env : Env) : List UInt8 → Prop where
  /-- The end of the stream behind a frame. -/
  | ended (h : env.ending = .eof) : CleanStream env []
  /-- An error before or in a size. -/
  | lostSize (stream : List UInt8) (h : env.ending = .error) (hlen : stream.length < 8) :
      CleanStream env stream
  /-- An error in a message, before `seek` overflows. -/
  | lostBody (size rest : List UInt8) (h : env.ending = .error) (hsize : size.length = 8)
      (hlen : rest.length < ofLeBytes size) (hseek : rest.length < 2 ^ 31) :
      CleanStream env (size ++ rest)
  /-- There is no memory for the message, of which something arrives. -/
  | noMemory (size rest : List UInt8) (hsize : size.length = 8) (hpos : ofLeBytes size ≠ 0)
      (hmalloc : env.malloc (ofLeBytes size) = false) (hrest : rest ≠ []) :
      CleanStream env (size ++ rest)
  /-- A complete frame, and the stream behind it. -/
  | frame (size body rest : List UInt8) (hsize : size.length = 8)
      (hbody : body.length = ofLeBytes size) (hle : sizeofMessage ≤ body.length)
      (hlt : body.length < 2 ^ 31) (hmalloc : env.malloc (ofLeBytes size) = true)
      (hrest : CleanStream env rest) : CleanStream env (size ++ (body ++ rest))

end Receive
