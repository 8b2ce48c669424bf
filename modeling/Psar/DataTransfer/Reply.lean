import Psar.DataTransfer.Pages

/-!
# Replies that come late

`update_page` takes over whatever `RECV_PAGE` brings. A reply does no harm as long as the node that
asked for the page does not become its owner while the reply, or the request for it, is under way.
-/

namespace PageTransfer

variable {Node Page C : Type} [DecidableEq Node] [DecidableEq Page]

/-! ## Requests and replies -/

/-- The message is an `ASK_PAGE` of `n` for the page, or the `RECV_PAGE` that answers it. -/
def Msg.isFor (n : Node) (q : Page) : Msg Node Page C → Bool
  | .askPage _ page requester => page = q ∧ requester = n
  | .recvPage d page _ _ => page = q ∧ d = n
  | _ => false

def Ask.isFor (n : Node) (q : Page) (a : Ask Node Page) : Bool :=
  a.page = q ∧ a.requester = n

/-- A request of `n` for the page is in flight or with a handler, or a reply is in flight. -/
def UnderWay (s : Net Node Page C) (n : Node) (q : Page) : Prop :=
  (∃ m ∈ s.msgs, Msg.isFor n q m) ∨ ∃ i, ∃ a ∈ (s.node i).asks, Ask.isFor n q a

instance [Fintype Node] (s : Net Node Page C) (n : Node) (q : Page) : Decidable (UnderWay s n q) :=
  inferInstanceAs (Decidable (_ ∨ _))

/-! ## Which steps are safe -/

/-- A node makes itself the owner of a page, by `set_new_owner` or by `RECV_PAGE_LEAVE`, only when
none of its own requests for the page is under way. -/
def ownSettled [Fintype Node] (s : Net Node Page C) : Event Node Page C → Bool
  | .act n (.publish q) => ¬ UnderWay s n q
  | .act n (.handPage h) => h.todo.head?.all fun x =>
      h.newOwner = n → ((s.node n).entry x.1).owner = h.leaver → ¬ UnderWay s n x.1
  | _ => true

/-- A `RECV_PAGE` that a node handles for a page of its own changes neither the content nor the
owner of the page. -/
def keepsOwn [DecidableEq C] (pages : List Page) (s : Net Node Page C) : Event Node Page C → Bool
  | .deliver (.recvPage n q owner page) => ((s.node n).entry q).owner = n →
      (step pages s (.deliver (.recvPage n q owner page))).all fun s' =>
        ((s'.node n).entry q).content = ((s.node n).entry q).content ∧
          ((s'.node n).entry q).owner = ((s.node n).entry q).owner
  | _ => true

/-! ## The invariant -/

/-- The messages: no node is told by itself, and `DT_LEAVE` does not go to the new owner. -/
def ReplyMsg : Msg Node Page C → Prop
  | .invalidation d sender _ => sender ≠ d
  | .recvPage d _ owner _ => owner ≠ d
  | .dtLeave d _ newOwner _ => newOwner ≠ d
  | _ => True

structure ReplyInv (s : Net Node Page C) : Prop where
  own : ∀ n q, ((s.node n).entry q).owner = n → ¬ UnderWay s n q
  msgs : ∀ m ∈ s.msgs, ReplyMsg m
  lists : ∀ n, n ∉ (s.node n).nodeList
  loops : ∀ n h, h ∈ (s.node n).hands → (∃ q, (q, none) ∈ h.todo) → h.newOwner ≠ n

end PageTransfer
