import Psar.Core.PageLock
import Psar.Dsm.Region

/-!
# Locking regions

`lock_read`, `lock_write`, `unlock_read` and `unlock_write` on a node that is alone, with one
application thread. The page lock of `core.c` is kept for every page; a message would only be sent
to another node, and none is. `opened` are the regions that the program has locked and not yet
unlocked.
-/

namespace Dsm

open PageLock (LockType LockStatus CoreInfo)

variable {Node : Type} [DecidableEq Node]

/-! ## Calls -/

/-- The arguments of a call: `lock_type` and the region from `adr` to `adr + s`. -/
structure Region where
  kind : LockType
  adr : BitVec 64
  s : BitVec 64
  deriving DecidableEq, Repr

inductive Event where
  /-- `lock_read` and `lock_write`. -/
  | lock (r : Region)
  /-- `unlock_read` and `unlock_write`. -/
  | unlock (r : Region)
  deriving DecidableEq, Repr

structure State (Node : Type) where
  core : ℕ → CoreInfo Node
  opened : List Region
  /-- The assertion in `unlock` has failed, which ends the program. -/
  aborted : Bool

/-! ## The page lock of every page -/

/-- `ask_lock` on one page; `none` when it does not return. -/
def askLock (me : Node) (c : CoreInfo Node) (m : LockType) : Option (CoreInfo Node) :=
  if c.mode = .none then
    match PageLock.askLockBody me c m with
    | (c, .returned _, _) => some c
    | _ => none
  else some c

/-- The loop of `exclude_others` with `ask_lock`. -/
def lockPages (me : Node) (m : LockType) :
    List ℕ → (ℕ → CoreInfo Node) → Option (ℕ → CoreInfo Node)
  | [], core => some core
  | page :: pages, core =>
    (askLock me (core page) m).bind fun c => lockPages me m pages (Function.update core page c)

/-- The loop of `exclude_others` with `unlock`; `none` when the assertion fails. -/
def unlockPages (me : Node) : List ℕ → (ℕ → CoreInfo Node) → Option (ℕ → CoreInfo Node)
  | [], core => some core
  | page :: pages, core =>
    (PageLock.unlockInternal me (core page)).bind fun r =>
      unlockPages me pages (Function.update core page r.1)

def Region.pages (dsm : BitVec 64) (r : Region) : List ℕ := regionPages dsm r.adr r.s

/-- A call that returns, or fails in the assertion. -/
def step (me : Node) (dsm : BitVec 64) (st : State Node) (e : Event) : Option (State Node) :=
  if st.aborted then none
  else
    match e with
    | .lock r => (lockPages me r.kind (r.pages dsm) st.core).map fun core =>
        { st with core := core, opened := r :: st.opened }
    | .unlock r =>
      match unlockPages me (r.pages dsm) st.core with
      | some core => some { st with core := core, opened := st.opened.erase r }
      | none => some { st with aborted := true }

/-- After `Init_DSM`. -/
def initState (me : Node) : State Node := ⟨fun _ => PageLock.initCore me, [], false⟩

/-! ## What the calls are for -/

/-- The region is not empty and lies inside the shared memory. -/
def Region.Valid (dsm : BitVec 64) (nbPages : ℕ) (r : Region) : Prop :=
  InDsm dsm nbPages r.adr r.s ∧ r.s ≠ 0

/-- Every region is valid, and every unlock matches an earlier lock of the same kind on the same
region that is not unlocked yet; `opened` are those open at the start. -/
def Bracketed (dsm : BitVec 64) (nbPages : ℕ) : List Region → List Event → Prop
  | _, [] => True
  | opened, .lock r :: es => r.Valid dsm nbPages ∧ Bracketed dsm nbPages (r :: opened) es
  | opened, .unlock r :: es => r ∈ opened ∧ Bracketed dsm nbPages (opened.erase r) es

/-- Every page of an open region is locked, for writing if the region is. -/
def Held (dsm : BitVec 64) (st : State Node) : Prop :=
  ∀ r ∈ st.opened, ∀ page, Touches dsm r.adr r.s page → (st.core page).mode ≠ .none ∧
    (r.kind = .write → (st.core page).mode = .writing)

def Safe (dsm : BitVec 64) (st : State Node) : Prop := st.aborted = false ∧ Held dsm st

/-- `lock_write` is called only if no page of the region is locked for reading, and a region is
unlocked only if it shares no page with another open region. -/
def apart (dsm : BitVec 64) (st : State Node) : Event → Prop
  | .lock r => r.kind = .write → ∀ page ∈ r.pages dsm, (st.core page).mode ≠ .reading
  | .unlock r => ∀ r' ∈ st.opened.erase r, ∀ page ∈ r.pages dsm, page ∉ r'.pages dsm

instance decidableApart (dsm : BitVec 64) (st : State Node) : ∀ e, Decidable (apart dsm st e)
  | .lock _ => inferInstanceAs (Decidable (_ → _))
  | .unlock _ => inferInstanceAs (Decidable (∀ _ ∈ _, _))

/-! ## The invariant -/

/-- The entry of a page on a node that is alone. -/
structure Alone (me : Node) (c : CoreInfo Node) : Prop where
  token : c.haveToken = me
  request : c.request = if c.mode = .reading then [⟨.read, me⟩] else []

structure Inv (me : Node) (dsm : BitVec 64) (nbPages : ℕ) (st : State Node) : Prop where
  alone : ∀ page, Alone me (st.core page)
  valid : ∀ r ∈ st.opened, r.Valid dsm nbPages
  safe : Safe dsm st

end Dsm
