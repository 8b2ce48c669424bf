import Mathlib

/-!
# Buffers that are written and read field by field

A cursor moves through a buffer of fixed size. Every field that is written or read is logged with
its offset, so that what a reader does can be compared with what a writer did. An access outside the
buffer gives `none`.
-/

namespace Buffer

variable {β α : Type}

/-- A field that was written or read: the offset of its first byte, and its bytes. -/
structure Access (β : Type) where
  offset : ℕ
  bytes : List β
  deriving DecidableEq, Repr

/-- A buffer, the position in it, and the accesses so far. -/
structure Cursor (β : Type) where
  mem : List β
  pos : ℕ
  log : List (Access β)

/-- The buffer with `bs` from the offset `off` on. -/
def overwrite (mem : List β) (off : ℕ) (bs : List β) : List β :=
  mem.take off ++ bs ++ mem.drop (off + bs.length)

/-- Writes a field at an offset. -/
def Cursor.store (c : Cursor β) (off : ℕ) (bs : List β) : Option (Cursor β) :=
  if off + bs.length ≤ c.mem.length then
    some { c with mem := overwrite c.mem off bs, log := c.log ++ [⟨off, bs⟩] }
  else none

def Cursor.skip (c : Cursor β) (n : ℕ) : Cursor β := { c with pos := c.pos + n }

/-- Writes a field at the position, and moves behind it. -/
def Cursor.put (c : Cursor β) (bs : List β) : Option (Cursor β) :=
  (c.store c.pos bs).map fun c' => c'.skip bs.length

/-- Reads a field of `n` bytes at the position, and moves behind it. -/
def Cursor.get (c : Cursor β) (n : ℕ) : Option (List β × Cursor β) :=
  if c.pos + n ≤ c.mem.length then
    let bs := (c.mem.drop c.pos).take n
    some (bs, { c with pos := c.pos + n, log := c.log ++ [⟨c.pos, bs⟩] })
  else none

/-! ## Fields one behind the other -/

/-- The accesses to the fields `fs`, the first one at `off` and each one behind the last. -/
def layout : ℕ → List (List β) → List (Access β)
  | _, [] => []
  | off, f :: fs => ⟨off, f⟩ :: layout (off + f.length) fs

/-- The bytes `bs` are in the buffer at the offset `off`. -/
def At (mem : List β) (off : ℕ) (bs : List β) : Prop :=
  ∃ before after, mem = before ++ bs ++ after ∧ before.length = off

/-- There is room for `n` bytes from the offset `off` on; for no bytes there always is. -/
def Room (mem : List β) (off n : ℕ) : Prop := off + n ≤ max off mem.length

/-- From `c` to `c'`, the fields `fs` were written, in any order. -/
structure Wrote (c c' : Cursor β) (fs : List (List β)) : Prop where
  room : Room c.mem c.pos fs.flatten.length
  mem : c'.mem = overwrite c.mem c.pos fs.flatten
  pos : c'.pos = c.pos + fs.flatten.length
  log : c'.log.Perm (c.log ++ layout c.pos fs)

/-- `f` writes the fields `fs` at the position, if there is room for them. -/
structure Writes (f : Cursor β → Option (Cursor β)) (fs : List (List β)) : Prop where
  defined : ∀ c : Cursor β, Room c.mem c.pos fs.flatten.length → ∃ c', f c = some c'
  wrote : ∀ c c', f c = some c' → Wrote c c' fs

/-- The cursor after the fields `fs` have been read. -/
def Cursor.passed (c : Cursor β) (fs : List (List β)) : Cursor β :=
  ⟨c.mem, c.pos + fs.flatten.length, c.log ++ layout c.pos fs⟩

/-- Where the fields `fs` are in the buffer, `f` reads them and returns `a`. -/
def Reads (f : Cursor β → Option (α × Cursor β)) (fs : List (List β)) (a : α) : Prop :=
  ∀ c : Cursor β, At c.mem c.pos fs.flatten → f c = some (a, c.passed fs)

end Buffer
