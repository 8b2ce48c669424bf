import Psar.Dsm.System
import Psar.Library.Transactions

/-!
# Regions as transactions

A program that locks one region at a time and accesses only what it has locked sees one memory: the
steps of all nodes are steps of the machine with locks of `Transactions`, whose memory holds what
the last stores have left, and so its regions are transactions.
-/

namespace Dsm.System

open PageLock (LockType)

variable {Node C : Type}

/-! ## The machine with locks -/

def kindOf : LockType → Transactions.Kind
  | .read => .read
  | .write => .write

/-- What a step is in the machine with locks. A page is locked when `ask_lock` has returned, and
unlocked when `exclude_others` protects it before it calls `unlock`. -/
def lockedEvents (dsm : BitVec 64) (s : State Node C) :
    Event Node C → List (Transactions.Event Node ℕ C)
  | .next n =>
    match (s.ctl n).pc with
    | .lockPage r _ page _ => [.lock n page (kindOf r.kind)]
    | _ => []
  | .ret n =>
    match (s.ctl n).pc with
    | .lock r _ _ => [.enter n (r.pages dsm)]
    | _ => []
  | .unlockRegion n _ => [.exit n]
  | .page n page .release => [.unlock n page]
  | .page n page (.store c) => [.store n page c]
  | .page n page .load => [.load n page ((s.page page).node n).data.content]
  | _ => []

/-- The steps that the machine with locks takes in the run. -/
def lockedRun [DecidableEq Node] [DecidableEq C] (nodeList : Node → List Node) (dsm : BitVec 64)
    (s : State Node C) (es : List (Event Node C)) : List (Transactions.Event Node ℕ C) :=
  Network.translate (step nodeList dsm) (lockedEvents dsm) s es

/-- A region is locked by a node that has nothing locked, a region that is locked is unlocked, and a
load is from a page of the region. -/
def oneRegion (dsm : BitVec 64) (s : State Node C) : Event Node C → Bool
  | .lockRegion n _ => (s.ctl n).opened = [] ∧ (s.ctl n).locked dsm = []
  | .unlockRegion n r => r ∈ (s.ctl n).opened
  | .page n page .load => ∃ r ∈ (s.ctl n).opened, page ∈ r.pages dsm
  | _ => true

/-! ## The relation -/

/-- A node has at most one region locked, and none in a call. -/
def OneRegion (c : Ctl) : Prop :=
  match c.pc with
  | .running => c.opened.length ≤ 1
  | .fault _ => c.opened.length ≤ 1
  | _ => c.opened = []

/-- The locks and the section of a node in the machine with locks. -/
structure CtlShows (dsm : BitVec 64) (c : Ctl) (held : ℕ → Option Transactions.Kind)
    (region : Option (List ℕ)) : Prop where
  alone : OneRegion c
  held : ∀ page k, held page = some (kindOf k) ↔ (page, k) ∈ c.locked dsm
  region : region = c.opened.head?.map fun r => r.pages dsm

/-- The machine with locks `l` is in the state `s`; `content` is what the last stores have left. -/
structure Shows (dsm : BitVec 64) (s : State Node C) (content : ℕ → C)
    (l : Transactions.Locked Node ℕ C) : Prop where
  content : l.content = content
  ctl : ∀ n, CtlShows dsm (s.ctl n) (l.held n) (l.region n)

end Dsm.System
