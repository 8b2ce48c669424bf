import Mathlib

/-!
# Length-prefixed frames

A message travels as a header of fixed width that encodes its length, followed by its bytes. The
reader fills a header, decodes a length from it, fills a body of that length, and delivers it.

The reader takes one byte at a time. A reader that takes its bytes in chunks, none of which goes
beyond the part that it is filling, is in the same state after the same bytes, so that the way in
which a stream is cut into chunks does not matter.
-/

namespace Framing

variable {β : Type}

/-- Headers of `width` bytes for the lengths below `bound`. -/
structure Header (β : Type) where
  /-- The number of bytes of a header. -/
  width : ℕ
  /-- The lengths below it can be decoded. -/
  bound : ℕ
  encode : ℕ → List β
  decode : List β → ℕ
  width_pos : 0 < width
  length_encode : ∀ n, (encode n).length = width
  decode_encode : ∀ n, n < bound → decode (encode n) = n

/-- The messages that a frame can carry. -/
def Header.Valid (H : Header β) (m : List β) : Prop := 0 < m.length ∧ m.length < H.bound

/-- A header with the length of the message, and the message. -/
def Header.frame (H : Header β) (m : List β) : List β := H.encode m.length ++ m

/-- The frames of the messages, one after the other. -/
def Header.frames (H : Header β) (ms : List (List β)) : List β := (ms.map H.frame).flatten

/-! ## The reader -/

/-- The part of a frame that a reader is filling. -/
inductive Part where
  | header
  | body (size : ℕ)
  deriving DecidableEq, Repr

structure Reader (β : Type) where
  part : Part
  /-- The bytes of the part that have been read. -/
  data : List β
  /-- The bodies that have been filled so far. -/
  delivered : List (List β)
  deriving DecidableEq, Repr

/-- A reader before its first byte. -/
def Reader.start : Reader β := ⟨.header, [], []⟩

/-- The length of the part that the reader is filling. -/
def Header.wanted (H : Header β) (r : Reader β) : ℕ :=
  match r.part with
  | .header => H.width
  | .body size => size

/-- Goes on to the next part once the current one is full. -/
def Header.next (H : Header β) (r : Reader β) : Reader β :=
  if r.data.length < H.wanted r then r
  else match r.part with
    | .header => ⟨.body (H.decode r.data), [], r.delivered⟩
    | .body _ => ⟨.header, [], r.delivered ++ [r.data]⟩

/-- Reads one byte. -/
def Header.feed (H : Header β) (r : Reader β) (b : β) : Reader β :=
  H.next { r with data := r.data ++ [b] }

/-- The reader has room for another byte. -/
def Header.Open (H : Header β) (r : Reader β) : Prop := r.data.length < H.wanted r

end Framing
