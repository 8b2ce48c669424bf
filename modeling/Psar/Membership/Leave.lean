import Psar.Membership.Join

/-!
# Forgetting the node that leaves

The handlers of `RECV_PAGE_LEAVE` and `DT_LEAVE` remove the leaver from the list after they have
acknowledged the message, and a handler of `JOIN_DSM` at the leaver may still run when the leaver
has informed the nodes of its list. `LeaveInv` follows one leave under the two conditions that make
up for this.
-/

namespace Membership

variable {Node : Type} [DecidableEq Node]

/-! ## Which steps are safe -/

/-- The leaver handles an acknowledgement only after its sender has removed the leaver. -/
def ackAfterRemoval (s : Net Node) : Event Node → Bool
  | .deliver (.ackRecvPage d sender) =>
    (s.node sender).all fun p => p.removing.all fun x => x.1 ≠ d
  | _ => true

/-- No handler of `JOIN_DSM` takes `umtx` after `leave_data_transfer` of the node has taken it. -/
def joinBeforeBroadcast (s : Net Node) : Event Node → Bool
  | .act i (.resume ⟨_, .lockUmtx⟩) => (s.node i).all fun p => match p.leave with
    | none => true
    | some (.waitOwner _) => true
    | _ => false
  | _ => true

/-! ## The invariant of a leave -/

/-- The node whose acknowledgement `leave_data_transfer` waits for. -/
def awaited (p : Peer Node) : Option Node :=
  match p.leave with
  | some (.waitOwner newOwner) => some newOwner
  | some (.waitNode _ n _) => some n
  | _ => none

/-- Where the leave of `l` is: the nodes of `gone` have removed it. -/
def LeaveStage (S : Finset Node) (l newOwner : Node) (gone : Finset Node) (p : Peer Node) : Prop :=
  match p.leave with
  | some (.waitOwner o) => o = newOwner ∧ (p.dtCv = true → newOwner ∈ gone)
  | some (.waitNode o n rest) => o = newOwner ∧ newOwner ∈ gone ∧ l ∉ rest ∧
      (p.dtCv = true → n ∈ gone) ∧ ∀ b ∈ S, b ≠ l → b ∈ gone ∨ b = n ∨ b ∈ rest
  | some .returned => ∀ b ∈ S, b ≠ l → b ∈ gone
  | none => False

/-- The messages of the leave of `l`: they are about the node that `l` waits for. -/
def LeaveMsg (l : Node) (gone : Finset Node) (s : Net Node) : Msg Node → Prop
  | .recvPageLeave d c => c = l ∧ d ≠ l ∧ (s.node l).bind awaited = some d
  | .dtLeave d c _ => c = l ∧ d ≠ l ∧ (s.node l).bind awaited = some d
  | .ackRecvPage d c => d = l ∧ (s.node l).bind awaited = some c ∧
      (c ∈ gone ∨ ∃ q ∈ s.node c, ∃ x ∈ q.removing, x.1 = l)
  | _ => True

/-- `dt_cv.predicate` of the leaver. -/
def dtCvAt (l i : Node) : Option (Peer Node) → ℕ
  | none => 0
  | some p => if i = l then p.dtCv.toNat else 0

def leaveMsg (m : Msg Node) : ℕ := m.ofLeave.toNat

/-- The invariant of the leave of `l`. -/
structure LeaveInv [Fintype Node] (S : Finset Node) (l newOwner : Node) (gone : Finset Node)
    (s : Net Node) : Prop extends Inv S l gone s where
  leaver : ∃ p, s.node l = some p ∧ p.inDsm = true ∧ LeaveStage S l newOwner gone p
  others : ∀ i, i ≠ l → ∀ p ∈ s.node i, p.leave = none
  removing : ∀ i, ∀ p ∈ s.node i, ∀ x ∈ p.removing, x.1 = l ∧ i ≠ l ∧ p.inDsm = true
  leaveMsgs : ∀ m ∈ s.msgs, LeaveMsg l gone s m
  single : s.weight (dtCvAt l) leaveMsg ≤ 1

end Membership
