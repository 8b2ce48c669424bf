import Psar.DataTransfer.Reply

/-!
# Handing the pages over

The node `l` runs `leave_data_transfer` while the others synchronise their pages. `TransferInv`
says where the requests and replies of the others are, and `HandoverInv` adds where the leave is.
A reply of `l` that is handled after the page has been handed over makes `l` the owner again, which
is what `repliesSettled` excludes.
-/

namespace PageTransfer

variable {Node Page C : Type} [DecidableEq Node] [DecidableEq Page]

/-! ## Which steps are taken -/

/-- The nodes do not write, `l` is the only one that leaves, and `l` does not synchronise pages. -/
def handoverOnly (l newOwner : Node) : Event Node Page C → Bool
  | .act _ (.write _ _) => false
  | .act _ (.publish _) => false
  | .act n (.syncPage _ _) => n ≠ l
  | .act n (.leave (.call o)) => n = l ∧ o = newOwner
  | _ => true

/-- The message is a `RECV_PAGE` of `l` to `n` for the page. -/
def Msg.isReply (l n : Node) (q : Page) : Msg Node Page C → Bool
  | .recvPage d page owner _ => d = n ∧ page = q ∧ owner = l
  | _ => false

/-- A request of `n` for the page is with a handler of `l`, or the reply of `l` is in flight. -/
def Late (s : Net Node Page C) (l n : Node) (q : Page) : Prop :=
  (∃ a ∈ (s.node l).asks, Ask.isFor n q a) ∨ ∃ m ∈ s.msgs, Msg.isReply l n q m

instance (s : Net Node Page C) (l n : Node) (q : Page) : Decidable (Late s l n q) :=
  inferInstanceAs (Decidable (_ ∨ _))

/-- A page is handed over at `n` only when `n` expects no reply of `l` for it. -/
def repliesSettled (l : Node) (s : Net Node Page C) : Event Node Page C → Bool
  | .act n (.handPage h) => h.todo.head?.all fun x => ¬ Late s l n x.1
  | _ => true

/-- The node has sent its acknowledgement to `l`. -/
def Acked (l : Node) (es : List (Event Node Page C)) (n : Node) : Prop :=
  ∃ h, .act n (.handAck h) ∈ es ∧ h.leaver = l

/-! ## Requests and replies -/

/-- The entry of `n` for the page names `newOwner`. -/
def Handed (newOwner : Node) (s : Net Node Page C) (n : Node) (q : Page) : Prop :=
  ((s.node n).entry q).owner = newOwner

/-- A request of `n` for the page is on its way to `d`, or with a handler there. -/
def AskedAt (s : Net Node Page C) (d : Node) (q : Page) (n : Node) : Prop :=
  .askPage d q n ∈ s.msgs ∨ ∃ a ∈ (s.node d).asks, Ask.isFor n q a

/-- A reply for the page is on its way to `n`. -/
def Replied (s : Net Node Page C) (n : Node) (q : Page) : Prop :=
  ∃ owner page, .recvPage n q owner page ∈ s.msgs

/-- A thread of the node waits in `sync_page` for the page. -/
def Blocked (p : Peer Node Page C) (q : Page) : Prop :=
  (∃ writing, (q, writing) ∈ p.syncing) ∧ (p.entry q).predicate = false

/-- The transfer while `l` hands over its pages, the pages with `ow q = l`, with the contents `c₀`.
-/
structure TransferInv (l newOwner : Node) (ow : Page → Node) (c₀ : Page → C)
    (s : Net Node Page C) : Prop where
  owner : ∀ n q, ((s.node n).entry q).owner = ow q ∨
    (ow q = l ∧ n ≠ l ∧ Handed newOwner s n q ∧ Handed newOwner s newOwner q)
  asked : ∀ d q n, AskedAt s d q n →
    n ≠ l ∧ (d = ow q ∨ (ow q = l ∧ d = newOwner ∧ Handed newOwner s n q))
  reply : ∀ n q owner page, .recvPage n q owner page ∈ s.msgs →
    n ≠ l ∧ (owner = ow q ∨ (ow q = l ∧ owner = newOwner ∧ Handed newOwner s n q)) ∧
      (ow q = l → page = c₀ q)
  late : ∀ n q, ow q = l → Handed newOwner s n q → (s.node l).askOn = false ∧ ¬ Late s l n q
  content : ∀ q, ow q = l → ((s.node l).entry q).content = c₀ q ∧
    (Handed newOwner s newOwner q → ((s.node newOwner).entry q).content = c₀ q)
  pending : ∀ n q, ow q = l → Handed newOwner s n q → ((s.node n).entry q).predicate = false →
    AskedAt s newOwner q n ∨ Replied s n q
  valid : ∀ d sender q, .invalidation d sender q ∉ s.msgs
  others : ∀ n, n ≠ l → (s.node n).recvOn = true ∧ (s.node n).askOn = true ∧
    (s.node n).leave = none

/-! ## The leave -/

def Msg.ofLeave : Msg Node Page C → Bool
  | .recvPageLeave _ _ _ _ => true
  | .dtLeave _ _ _ _ => true
  | .ackRecvPage _ _ => true
  | _ => false

/-- The node whose acknowledgement `leave_data_transfer` waits for. -/
def awaited (p : Peer Node Page C) : Option Node :=
  match p.leave with
  | some (.waitOwner newOwner _) => some newOwner
  | some (.waitNode _ _ n _) => some n
  | _ => none

/-- All pages of `l` are handed over at `n`, and `n` has acknowledged this. -/
def Done (l newOwner : Node) (ow : Page → Node) (acked : Node → Prop) (s : Net Node Page C)
    (n : Node) : Prop :=
  (∀ q, ow q = l → Handed newOwner s n q) ∧ acked n

/-- Where the leave of `l` is; `done` holds of the nodes that are done and `nodes` is the list of
`l`. -/
def LeaveStage (l newOwner : Node) (ow : Page → Node) (nodes : List Node) (done : Node → Prop)
    (p : Peer Node Page C) : Prop :=
  match p.leave with
  | none => True
  | some (.removeAsk o) => o = newOwner
  | some (.lockPages o todo owned) => o = newOwner ∧ p.askOn = false ∧
      (∀ q ∈ owned, ow q = l) ∧ ∀ q, ow q = l → q ∈ owned ∨ q ∈ todo
  | some (.waitOwner o owned) => o = newOwner ∧ p.askOn = false ∧
      (∀ q, q ∈ owned ↔ ow q = l) ∧ (p.dtCv = true → done newOwner)
  | some (.waitNode o owned n rest) => o = newOwner ∧ p.askOn = false ∧
      (∀ q, q ∈ owned ↔ ow q = l) ∧ done newOwner ∧ n ≠ l ∧ n ≠ newOwner ∧ l ∉ rest ∧
      (p.dtCv = true → done n) ∧ ∀ b ∈ nodes, done b ∨ b = n ∨ b ∈ rest
  | some (.returned o _) => o = newOwner ∧ done newOwner ∧ ∀ b ∈ nodes, done b

/-- What is left to do at `n`: all pages are those of `l`, and the new owner gets their contents. -/
def Todo (l newOwner : Node) (ow : Page → Node) (c₀ : Page → C) (s : Net Node Page C) (n : Node)
    (todo : List (Page × Option C)) : Prop :=
  (∀ x ∈ todo, ow x.1 = l ∧ (n = newOwner → x.2 = some (c₀ x.1))) ∧
    ∀ q, ow q = l → Handed newOwner s n q ∨ ∃ x ∈ todo, x.1 = q

/-- The messages of the leave are about the node that `l` waits for. -/
def LeaveMsg (l newOwner : Node) (ow : Page → Node) (c₀ : Page → C) (done : Node → Prop)
    (s : Net Node Page C) : Msg Node Page C → Prop
  | .recvPageLeave d sender o given => sender = l ∧ o = newOwner ∧ d ≠ l ∧
      awaited (s.node l) = some d ∧ Todo l newOwner ow c₀ s d (given.map fun x => (x.1, some x.2))
  | .dtLeave d sender o given => sender = l ∧ o = newOwner ∧ d ≠ l ∧
      awaited (s.node l) = some d ∧ Todo l newOwner ow c₀ s d (given.map fun q => (q, none))
  | .ackRecvPage d sender => d = l ∧ awaited (s.node l) = some sender ∧ done sender
  | _ => True

/-- The handlers of a leave at `i`, and at the leaver `dt_cv.predicate`. -/
def leaveAt (l i : Node) (p : Peer Node Page C) : ℕ :=
  p.hands.length + if i = l ∧ (awaited p).isSome then p.dtCv.toNat else 0

def leaveMsg (m : Msg Node Page C) : ℕ := m.ofLeave.toNat

structure HandoverInv [Fintype Node] (l newOwner : Node) (ow : Page → Node) (c₀ : Page → C)
    (nodes : List Node) (acked : Node → Prop) (s : Net Node Page C) : Prop
    extends TransferInv l newOwner ow c₀ s where
  stage : LeaveStage l newOwner ow nodes (Done l newOwner ow acked s) (s.node l)
  list : (s.node l).nodeList = nodes
  hands : ∀ n, ∀ h ∈ (s.node n).hands, n ≠ l ∧ h.leaver = l ∧ h.newOwner = newOwner ∧
    awaited (s.node l) = some n ∧ Todo l newOwner ow c₀ s n h.todo
  leaveMsgs : ∀ m ∈ s.msgs, LeaveMsg l newOwner ow c₀ (Done l newOwner ow acked s) s m
  single : s.weight (leaveAt l) leaveMsg ≤ 1

end PageTransfer
