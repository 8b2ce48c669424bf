import Psar.DataTransfer.Ownership

/-!
# The content of the page

A node relies on its copy of the page without asking anybody when it takes itself for the owner,
when `page_state` is set, or when the page is not protected. An invalidation tells it to stop doing
so, but nobody waits for the invalidation to be handled: these definitions say which copies are up
to date nevertheless.
-/

namespace DataTransfer

variable {Node C : Type} [DecidableEq Node]

/-- The content that the last write has left, when it was `v` before the step. -/
def lastContent (v : C) : Event Node C → C
  | .act _ (.write page) => page
  | _ => v

/-- The node `n` takes its copy for the current one. -/
def Peer.trusts (n : Node) (p : Peer Node C) : Prop :=
  p.owner = n ∨ p.state = true ∨ p.prot ≠ .none

/-- The thread reads its copy without a further check. -/
def Peer.valid (p : Peer Node C) : Bool :=
  match p.thread with
  | .running => p.mode ≠ .none ∧ p.prot ≠ .none
  | .asking => false
  | .syncing _ => p.predicate
  | .synced _ => true
  | .writable => true

/-- A node does not rely on its copy while an invalidation to it is in flight: it does not enter its
critical section with the page unprotected, `sync_page` does not return at once, and
`ASK_PAGE_handler` does not answer. -/
def upToDate (s : Net Node C) : Event Node C → Bool
  | .act i .grant => (s.node i).prot = .none ∨ invalidated s i = false
  | .act i (.sigsevHandler _) =>
    (s.node i).owner ≠ i ∧ (s.node i).state = false ∨ invalidated s i = false
  | .deliver (.askPage d _) => (s.node d).owner ≠ d ∨ invalidated s d = false
  | _ => true

/-- The state of one node by itself. -/
structure PageLocal (p : Peer Node C) : Prop where
  mode : p.thread ≠ .running → p.mode ≠ .none
  writable : p.thread = .writable → p.mode = .writing
  prot : p.prot = .readWrite → p.mode = .writing ∧ p.thread ≠ .asking

/-- The invariant of the copies, when `v` is the content that the last write has left. -/
structure Coherent (v : C) (s : Net Node C) : Prop where
  local_ : ∀ n, PageLocal (s.node n)
  /-- A writer is alone in its critical section. -/
  alone : ∀ n m, (s.node n).inside = true → (s.node m).inside = true →
    (s.node n).mode = .writing → n = m
  fresh : ∀ n, (s.node n).trusts n → invalidated s n = false → (s.node n).content = v
  valid : ∀ n, (s.node n).valid = true → (s.node n).content = v
  recv : ∀ d o page, Msg.recvPage d o page ∈ s.msgs → page = v
  /-- Whoever may write has invalidated the copies of all others. -/
  writer : ∀ n, (s.node n).thread = .running → (s.node n).prot = .readWrite →
    ∀ m, m ≠ n → (s.node m).trusts m → invalidated s m = true

end DataTransfer
