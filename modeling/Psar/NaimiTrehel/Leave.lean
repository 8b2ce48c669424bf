import Psar.Library.Pointers
import Psar.NaimiTrehel.Exclusion

/-!
# Leaving the critical section

A node that leaves inside the critical section does not pass the token on: its successor makes a new
one in `NEW_ROOT_CS_handler`. These definitions say where the token is during a leave, and why the
successor is another node: the father pointers and the requests in flight form a tree, so no node
ever handles its own request.
-/

namespace NaimiTrehel

variable {Node : Type} [DecidableEq Node]

/-! ## The tree of the fathers -/

/-- The father of every node. -/
def fathers (s : Net Node) : Node → Option Node := fun i => (s.node i).father

/-- A request in flight, as destination and requester. -/
def Msg.request : Msg Node → Option (Node × Node)
  | .requestCS d _ y => some (d, y)
  | _ => none

/-- The invariant of the father pointers, as long as nobody leaves. -/
structure TreeInv [Fintype Node] (s : Net Node) : Prop where
  stays : ∀ i, (s.node i).leaving = false ∧ (s.node i).resetting = []
  msgs : ∀ m ∈ s.msgs, MsgInv m
  forest : Pointers.Forest (fathers s) (s.msgs.filterMap Msg.request)
  next : ∀ i, (s.node i).next ≠ some i

/-! ## The token during a leave -/

/-- The token at a node other than the leaver. -/
def tokenOf (l : Node) (i : Node) (p : Peer Node) : ℕ := if i = l then 0 else p.token.toNat

/-- The token in flight: as `GET_CS`, or still to be made by `NEW_ROOT_CS_handler`. -/
def newTokenMsg : Msg Node → ℕ
  | .getCS _ _ => 1
  | .newRootCS _ _ => 1
  | _ => 0

/-- The messages during the leave of `l`: nobody sends the token to `l` or asks for it in the name
of `l`. -/
def LeaveMsg (l : Node) : Msg Node → Prop
  | .requestCS _ _ y => y ≠ l
  | .getCS d _ => d ≠ l
  | .newRootCS d _ => d ≠ l
  | .resetCS d _ => d ≠ l
  | _ => True

/-- The state of a node other than the leaver `l`. -/
structure LeaveLocal (l : Node) (p : Peer Node) : Prop extends LocalInv p where
  stays : p.leaving = false
  next : p.next ≠ some l
  resetting : ∀ x ∈ p.resetting, l ∉ x.rest

/-- The invariant of the leave of `l`. -/
structure LeaveInv [Fintype Node] (l : Node) (s : Net Node) : Prop where
  local_ : ∀ i, i ≠ l → LeaveLocal l (s.node i)
  leaver : (s.node l).requesting = true
  msgs : ∀ m ∈ s.msgs, LeaveMsg l m
  token : s.weight (tokenOf l) newTokenMsg = 1

/-- The steps of a leave of `l`: nobody else leaves, and no thread of `l` calls a function of the
critical section. -/
def leaveEvent (l : Node) : Event Node → Bool
  | .act i a => i ≠ l && noLeave (.act i a)
  | .deliver _ => true

/-- `RESET_CS` is handled by nodes that do not have the token. -/
def resetWithoutToken (s : Net Node) : Event Node → Bool
  | .deliver (.resetCS d _) => !(s.node d).token
  | _ => true

/-- The number of nodes other than `l` that have the token. -/
def tokensBut [Fintype Node] (l : Node) (s : Net Node) : ℕ :=
  (Finset.univ.filter fun i => i ≠ l ∧ (s.node i).token = true).card

/-- The number of `GET_CS` in flight. -/
def getCSs (s : Net Node) : ℕ :=
  s.msgs.countP fun m => match m with
    | .getCS _ _ => true
    | _ => false

end NaimiTrehel
