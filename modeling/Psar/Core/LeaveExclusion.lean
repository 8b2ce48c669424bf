import Psar.Core.Exclusion

/-!
# Reader/writer exclusion while a node leaves

When the node `l` leaves with the token, its `READ` entries travel to the delegate `d` in
`SEND_STATE`. Until the lock is next granted to a writer, there are no more readers than `READ`
entries in that message and in the list of `d`, provided `d` handles `SEND_STATE` before the
`DELEGATE` that makes it the owner of the token.
-/

namespace PageLock

variable {Node : Type} [DecidableEq Node]

/-- `SEND_STATE`. -/
def Msg.isState : Msg Node → Bool
  | .sendState _ _ _ => true
  | _ => false

/-- The delegate handles `SEND_STATE` before its `DELEGATE`. -/
def stateFirst (s : Net Node) : Event Node → Bool
  | .deliver (.delegate n _ delegate) => n ≠ delegate || s.msgs.all fun m => !m.isState
  | _ => true

/-! ## Weights -/

/-- One at `j`, unless `j` waits for `k`. -/
def idleAt (j : Node) (k : LockType) (i : Node) (p : Peer Node) : ℕ :=
  if i = j ∧ p.waits k = false then 1 else 0

/-- The `READ` entries in the list of the delegate. -/
def keptAt (d : Node) (i : Node) (p : Peer Node) : ℕ := if i = d then reads p.core.request else 0

/-- The `READ` entries on their way to the delegate. -/
def keptMsg : Msg Node → ℕ
  | .sendState _ _ (some rs) => reads rs
  | _ => 0

/-! ## The invariant -/

/-- The state of the node `i` while `l` leaves and nobody writes; `b` tells whether `SEND_STATE` has
been handled. -/
structure WindowLocal (l d : Node) (b : Prop) (i : Node) (p : Peer Node) : Prop where
  mode : match p.thread with
    | .idle => p.core.mode = .none
    | .semWait => p.core.mode = .writing
    | .condWait k => p.core.mode = k.toStatus
    | .returned k => p.core.mode = k.toStatus
    | .leaving d' locked => p.core.mode = .none ∧ p.core.haveToken = i ∧ d' = d ∧ locked = true
    | .left => p.core.mode = .none
  leaver : (p.thread = .left ∨ ∃ d' locked, p.thread = .leaving d' locked) ↔ i = l
  predicate : p.core.predicate = true → ∃ k, p.thread = .condWait k
  noWriter : p.granted .write = false
  /-- Only the delegate has the token, and only once it has the list that goes with it. -/
  token : p.core.haveToken = i →
    (∃ d' locked, p.thread = .leaving d' locked) ∨ p.waits .write = true ∨ (i = d ∧ b)
  requests : i ≠ l → ∀ r ∈ p.core.request, r.who ≠ l
  semaphore : p.core.writeAutoLock = 0

/-- The messages in flight while `l` leaves and nobody writes. -/
def WindowMsg (l d : Node) (b : Prop) : Msg Node → Prop
  | .askLock _ _ j _ => j ≠ l
  | .getLock j sender _ k => k = .read ∧ (sender = j → j = d ∧ b)
  | .unlock _ _ _ _ => True
  | .sendState d' _ rs => d' = d ∧ ∃ q, rs = some q ∧ ∀ r ∈ q, r.who ≠ l
  | .delegate n l' d' => n ≠ l ∧ l' = l ∧ d' = d
  | .delegateAck _ _ => True

/-- `SEND_STATE` has been handled. -/
def stateHandled (s : Net Node) : Prop := ∀ m ∈ s.msgs, m.isState = false

/-- The invariant of a leave, up to the next grant to a writer. -/
structure WindowInv [Fintype Node] (l d : Node) (s : Net Node) : Prop where
  local_ : ∀ i, WindowLocal l d (stateHandled s) i (s.node i)
  msgs : ∀ m ∈ s.msgs, WindowMsg l d (stateHandled s) m
  pending : ∀ j k, s.weight (idleAt j k) (pendingMsg j k) ≤ 1
  readers : s.weight readerAt readerMsg ≤ s.weight (keptAt d) keptMsg

/-- After the steps `evs` of a leave of `l` that started with the request list `rs`: all readers of
`rs` have called `unlock`, or those that have not still read and nobody writes. -/
def ReadersOut [Fintype Node] (l d : Node) (rs : List (Request Node)) (s : Net Node)
    (evs : List (Event Node)) : Prop :=
  (∀ r ∈ rs, r.mode = .read → .act r.who .unlock ∈ evs) ∨
  (WindowInv l d s ∧ ∀ r ∈ rs, r.mode = .read →
    .act r.who .unlock ∈ evs ∨ (s.node r.who).thread = .returned .read)

end PageLock
