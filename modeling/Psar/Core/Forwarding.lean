import Psar.Core.ReadOnly

/-!
# Forwarding an `ASK_LOCK`

An `ASK_LOCK` goes from node to node: to the last writer of the request list if there is one, and
otherwise along `have_token`, until a node queues or answers it. For `READ`, passing it on changes
no entry, so the way of the message can be read off one state of the network.

A node that asks for `WRITE` keeps its pointer until the `GET_LOCK` arrives, while those that handle
the request point to the node from then on. Only a node whose last writer is itself does not.
-/

namespace PageLock

variable {Node : Type} [DecidableEq Node]

/-- An `ASK_LOCK(READ)` of `initiator` that is handled at a node, with no other step taking place,
is queued or answered after finitely many hops. -/
inductive Answered (s : Net Node) (initiator : Node) : Node → Prop
  | queued {d : Node} {out : List (Msg Node)}
      (h : handleAskLock d (s.node d).core initiator .read =
        (addRequest (s.node d).core initiator .read, out)) : Answered s initiator d
  | forwarded {d d' : Node}
      (h : handleAskLock d (s.node d).core initiator .read =
        ((s.node d).core, [.askLock d' d initiator .read])) (h' : Answered s initiator d') :
      Answered s initiator d

/-- Every node to which an `ASK_LOCK(READ)` may be sent brings it to an end. -/
def ForwardingEnds (s : Net Node) : Prop := ∀ initiator d, Answered s initiator d

/-- An `ASK_LOCK(WRITE)` is handled only by a node whose last writer is the node itself. -/
def writersQueued (s : Net Node) : Event Node → Bool
  | .deliver (.askLock d _ _ .write) =>
    (findLastWriter (s.node d).core).any fun lastWriter => lastWriter.who = d
  | _ => true

/-! ## What is counted -/

/-- The entries of `j` at the node `i` that may still be answered with a `GET_LOCK`: its `READ`
entries if `i` writes, and its `WRITE` entries. -/
def unserved (j i : Node) (p : Peer Node) : ℕ :=
  (if p.core.mode = .writing ∧ p.thread ≠ .semWait then p.core.request.count ⟨.read, j⟩ else 0) +
    if j = i then 0 else p.core.request.count ⟨.write, j⟩

/-- The unserved entries of `j` at `i`, and one more at `j` itself unless `j` waits for a
`GET_LOCK`. -/
def claimAt (j i : Node) (p : Peer Node) : ℕ :=
  unserved j i p + if i = j ∧ p.blocked = false then 1 else 0

/-- The `ASK_LOCK` of `j` and the `GET_LOCK` to `j`. -/
def claimMsg (j : Node) : Msg Node → ℕ
  | .askLock _ _ initiator _ => if initiator = j then 1 else 0
  | .getLock d _ _ _ => if d = j then 1 else 0
  | _ => 0

/-! ## The invariant -/

/-- The state of the node `i`; `height` goes down along the pointers. -/
structure ForwardLocal (height : Node → ℕ) (i : Node) (p : Peer Node) : Prop where
  writer : ∀ w, findLastWriter p.core = some w → w.who = i ∧ p.thread = .semWait
  pointer : findLastWriter p.core = none →
    p.core.haveToken = i ∨ height p.core.haveToken < height i
  mode : match p.thread with
    | .idle => p.core.mode = .none
    | .condWait _ => p.core.mode ≠ .none
    | .leaving _ _ => False
    | .left => False
    | _ => True
  blocked : p.blocked = true → p.core.haveToken ≠ i
  predicate : p.core.predicate = true → ∃ k, p.thread = .condWait k
  list : p.core.request ≠ [] → p.core.haveToken = i ∨ p.thread = .semWait
  readers : ∀ r ∈ p.core.request, r.who ≠ i → height i < height r.who
  semaphore : p.core.writeAutoLock = 0

def ForwardMsg (height : Node → ℕ) : Msg Node → Prop
  | .askLock d _ j _ => height d < height j
  | .getLock j sender _ k => k = .read → height sender < height j
  | .unlock d sender _ _ => sender ≠ d
  | _ => False

/-- The invariant of the runs in which every `ASK_LOCK(WRITE)` is queued. -/
structure ForwardInv [Fintype Node] (height : Node → ℕ) (s : Net Node) : Prop where
  local_ : ∀ i, ForwardLocal height i (s.node i)
  msgs : ∀ m ∈ s.msgs, ForwardMsg height m
  /-- A request for `WRITE` is where its initiator points to. -/
  asked : ∀ d sender j, .askLock d sender j .write ∈ s.msgs → (s.node j).core.haveToken = d
  claims : ∀ j, s.weight (claimAt j) (claimMsg j) ≤ 1

end PageLock
