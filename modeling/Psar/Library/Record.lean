import Psar.Library.Buffer

/-!
# Records with padding

A record is a sequence of fields, with padding between them that is neither written nor read. A
program moves a cursor through a buffer, writes a record at the position or reads one there, and
returns a value. An access outside the buffer makes it fail.
-/

namespace Record

open Buffer (Access At Cursor overwrite)

variable {β α σ : Type}

/-- A part of a record. -/
inductive Piece (β : Type) where
  | field (bs : List β)
  | padding (n : ℕ)
  deriving DecidableEq, Repr

def Piece.size : Piece β → ℕ
  | .field bs => bs.length
  | .padding n => n

/-- The number of bytes of a record, with its padding. -/
def size (ps : List (Piece β)) : ℕ := (ps.map Piece.size).sum

/-- The fields of a record that starts at `off`, with their offsets. -/
def accesses : ℕ → List (Piece β) → List (Access β)
  | _, [] => []
  | off, .field bs :: ps => ⟨off, bs⟩ :: accesses (off + bs.length) ps
  | off, .padding n :: ps => accesses (off + n) ps

/-- The buffer after some fields have been written. -/
def writeAll (mem : List β) (as : List (Access β)) : List β :=
  as.foldl (fun mem a => overwrite mem a.offset a.bytes) mem

/-- The fields of a record that starts at `off` are in the buffer. -/
def Holds (mem : List β) (off : ℕ) (ps : List (Piece β)) : Prop :=
  ∀ a ∈ accesses off ps, At mem a.offset a.bytes

/-! ## Programs -/

/-- What is done with a cursor. -/
abbrev Prog (β α : Type) := StateT (Cursor β) Option α

/-- Writes a field. -/
def put (bs : List β) : Prog β Unit := fun c => (c.put bs).map fun c' => ((), c')

/-- Reads a field of `n` bytes. -/
def get (n : ℕ) : Prog β (List β) := fun c => c.get n

def skip (n : ℕ) : Prog β Unit := fun c => some ((), c.skip n)

/-- Does `f` with a copy of the cursor, and moves the cursor by `n`. -/
def stride (n : ℕ) (f : Prog β α) : Prog β α :=
  fun c => (f c).map fun r => (r.1, { r.2 with pos := c.pos + n })

/-- Does `body` a number of times. -/
def loop (body : σ → Prog β σ) : ℕ → σ → Prog β σ
  | 0, s => pure s
  | n + 1, s => body s >>= loop body n

/-- The cursor behind a record that has been read. -/
def passed (c : Cursor β) (ps : List (Piece β)) : Cursor β :=
  ⟨c.mem, c.pos + size ps, c.log ++ accesses c.pos ps⟩

/-- The cursor behind a record that has been written. -/
def written (c : Cursor β) (ps : List (Piece β)) : Cursor β :=
  ⟨writeAll c.mem (accesses c.pos ps), c.pos + size ps, c.log ++ accesses c.pos ps⟩

/-- Where there is room for the record, `f` writes it. -/
def Writes (f : Prog β Unit) (ps : List (Piece β)) : Prop :=
  ∀ c : Cursor β, c.pos + size ps ≤ c.mem.length → f c = some ((), written c ps)

/-- Where the record is in the buffer, `f` reads it and returns `a`. -/
def Reads (f : Prog β α) (ps : List (Piece β)) (a : α) : Prop :=
  ∀ c : Cursor β, Holds c.mem c.pos ps → f c = some (a, passed c ps)

end Record
