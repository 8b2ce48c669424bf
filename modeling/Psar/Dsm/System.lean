import Psar.Dsm.RegionLock
import Psar.Sigsegv.Coherence

/-!
# All pages together

Every page has its own page lock and its own page transfer; what joins them is the application
thread of a node, which is in one call at a time. `lock_read`, `lock_write`, `unlock_read` and
`unlock_write` go through the pages of a region one after the other, and a page fault keeps the
thread in `sigsev_handler` for that page.
-/

namespace Dsm.System

open PageLock (LockType)

variable {Node C : Type} [DecidableEq Node]

/-! ## The application thread -/

/-- Where the application thread of a node is. -/
inductive Pc where
  /-- In the program itself. -/
  | running
  /-- In the loop of `exclude_others` with `ask_lock`, between two pages: those of `done` are
  locked, those of `todo` are not yet. -/
  | lock (r : Region) (done todo : List ℕ)
  /-- In the body of that loop, with `page`. -/
  | lockPage (r : Region) (done : List ℕ) (page : ℕ) (todo : List ℕ)
  /-- In the loop of `exclude_others` with `unlock`, between two pages. -/
  | unlock (r : Region) (todo : List ℕ)
  /-- In the body of that loop, with `page`. -/
  | unlockPage (r : Region) (page : ℕ) (todo : List ℕ)
  /-- In `sigsev_handler`, for `page`. -/
  | fault (page : ℕ)
  deriving DecidableEq, Repr

/-- The application thread of a node: where it is, and the regions it has locked. -/
structure Ctl where
  pc : Pc
  opened : List Region
  deriving DecidableEq, Repr

/-- Where the thread goes when it takes the step `a` on `page`. -/
def Ctl.pageMove (c : Ctl) (page : ℕ) : Sigsegv.Action C → Option Ctl
  | .lock k =>
    match c.pc with
    | .lock r done (p :: todo) =>
      if p = page ∧ r.kind = k then some { c with pc := .lockPage r done p todo } else none
    | _ => none
  | .askLock | .resume | .semWake =>
    match c.pc with
    | .lockPage _ _ p _ => if p = page then some c else none
    | _ => none
  | .release =>
    match c.pc with
    | .unlock r (p :: todo) => if p = page then some { c with pc := .unlockPage r p todo } else none
    | _ => none
  | .unlock =>
    match c.pc with
    | .unlockPage r p todo => if p = page then some { c with pc := .unlock r todo } else none
    | _ => none
  | .sigsevHandler _ => if c.pc = .running then some { c with pc := .fault page } else none
  | .wake => if c.pc = .fault page then some c else none
  | .sigsevReturn => if c.pc = .fault page then some { c with pc := .running } else none
  | .store _ => if c.pc = .running then some c else none
  | .load => if c.pc = .running then some c else none

/-! ## Steps -/

structure State (Node C : Type) where
  page : ℕ → Sigsegv.Net Node C
  ctl : Node → Ctl

inductive Event (Node C : Type) where
  /-- The call of `lock_read` or `lock_write`. -/
  | lockRegion (n : Node) (r : Region)
  /-- The call of `unlock_read` or `unlock_write`. -/
  | unlockRegion (n : Node) (r : Region)
  /-- A step of the application thread on a page. -/
  | page (n : Node) (page : ℕ) (a : Sigsegv.Action C)
  /-- `ask_lock` has returned, and the loop goes on. -/
  | next (n : Node)
  /-- The loop has ended, and the call returns. -/
  | ret (n : Node)
  /-- A message about a page is handled. -/
  | deliver (page : ℕ) (m : Sigsegv.Msg Node C)
  deriving DecidableEq, Repr

def State.setCtl (s : State Node C) (n : Node) (c : Ctl) : State Node C :=
  { s with ctl := Function.update s.ctl n c }

def State.setPage (s : State Node C) (page : ℕ) (t : Sigsegv.Net Node C) : State Node C :=
  { s with page := Function.update s.page page t }

/-- One step; `nodeList n` is the `node_list` of `n`, and `dsm` is the global of that name. -/
def step [DecidableEq C] (nodeList : Node → List Node) (dsm : BitVec 64) (s : State Node C) :
    Event Node C → Option (State Node C)
  | .lockRegion n r =>
    if (s.ctl n).pc = .running then
      some (s.setCtl n { s.ctl n with pc := .lock r [] (r.pages dsm) })
    else none
  | .unlockRegion n r =>
    if (s.ctl n).pc = .running then
      some (s.setCtl n ⟨.unlock r (r.pages dsm), (s.ctl n).opened.erase r⟩)
    else none
  | .page n page a =>
    ((s.ctl n).pageMove page a).bind fun c =>
      (Sigsegv.step nodeList (s.page page) (.act n a)).map fun t => (s.setPage page t).setCtl n c
  | .next n =>
    match (s.ctl n).pc with
    | .lockPage r done page todo =>
      if ((s.page page).node n).running then
        some (s.setCtl n { s.ctl n with pc := .lock r (done ++ [page]) todo })
      else none
    | _ => none
  | .ret n =>
    match (s.ctl n).pc with
    | .lock r _ [] => some (s.setCtl n ⟨.running, r :: (s.ctl n).opened⟩)
    | .unlock _ [] => some (s.setCtl n { s.ctl n with pc := .running })
    | _ => none
  | .deliver page m =>
    (Sigsegv.step nodeList (s.page page) (.deliver m)).map fun t => s.setPage page t

/-- The node `o` has called `Init_DSM` and all others have joined; `content page n` is what the
memory of `n` holds in `page`. -/
def initState (o : Node) (content : ℕ → Node → C) : State Node C where
  page := fun page => Sigsegv.initNet o (content page)
  ctl := fun _ => ⟨.running, []⟩

/-! ## One page of many -/

/-- The step of a page that the step is. -/
def pageSteps : Event Node C → List (ℕ × Sigsegv.Event Node C)
  | .page n page a => [(page, .act n a)]
  | .deliver page m => [(page, .deliver m)]
  | _ => []

/-- The steps of `page` in a run. -/
def stepsOn [DecidableEq C] (nodeList : Node → List Node) (dsm : BitVec 64) (page : ℕ)
    (s : State Node C) (es : List (Event Node C)) : List (Sigsegv.Event Node C) :=
  Network.stepsOf page (Network.translate (step nodeList dsm) (fun _ => pageSteps) s es)

/-- The step of a page meets `ok`, if the step is one. -/
def onPage (ok : Sigsegv.Net Node C → Sigsegv.Event Node C → Bool) (s : State Node C)
    (e : Event Node C) : Bool :=
  (pageSteps e).all fun x => ok (s.page x.1) x.2

/-- The content of `page` that the last store has left, when it was `v` before the step. -/
def lastStore (page : ℕ) (v : C) : Event Node C → C
  | .page n p a => if p = page then Sigsegv.lastStore v (.act n a : Sigsegv.Event Node C) else v
  | _ => v

/-! ## Locked pages -/

/-- The pages with the lock type `k`. -/
def withKind (k : LockType) (pages : List ℕ) : List (ℕ × LockType) :=
  pages.map fun page => (page, k)

/-- The pages of the open regions. -/
def openedPages (dsm : BitVec 64) (opened : List Region) : List (ℕ × LockType) :=
  opened.flatMap fun r => withKind r.kind (r.pages dsm)

/-- The pages that the thread has locked, and how. -/
def Ctl.locked (dsm : BitVec 64) (c : Ctl) : List (ℕ × LockType) :=
  openedPages dsm c.opened ++
    match c.pc with
    | .lock r done _ => withKind r.kind done
    | .lockPage r done _ _ => withKind r.kind done
    | .unlock r todo => withKind r.kind todo
    | .unlockPage r _ todo => withKind r.kind todo
    | _ => []

/-- The pages that the call of the thread is going to lock, or is about to release. -/
def Ctl.pending (c : Ctl) : List ℕ :=
  match c.pc with
  | .lock _ _ todo => todo
  | .lockPage _ _ page todo => page :: todo
  | .unlockPage _ page _ => [page]
  | _ => []

/-- A region that shares no page with those the node has locked is locked, and a region that is
locked is unlocked. -/
def bracketed (dsm : BitVec 64) (s : State Node C) : Event Node C → Bool
  | .lockRegion n r => ∀ x ∈ (s.ctl n).locked dsm, x.1 ∉ r.pages dsm
  | .unlockRegion n r => r ∈ (s.ctl n).opened
  | _ => true

/-- A region is locked only above all pages that the node has locked. -/
def ascending (dsm : BitVec 64) (s : State Node C) : Event Node C → Bool
  | .lockRegion n r => ∀ x ∈ (s.ctl n).locked dsm, ∀ page ∈ r.pages dsm, x.1 < page
  | _ => true

/-! ## Waiting -/

/-- The thread of `n` waits in `ask_lock` for `page`. -/
def WaitsAt (s : State Node C) (n : Node) (page : ℕ) : Prop :=
  Sigsegv.waiting ((s.page page).node n).lock.thread = true

/-- The thread of `m` has the lock of `page`. -/
def HoldsPage (s : State Node C) (m : Node) (page : ℕ) : Prop :=
  ∃ k, ((s.page page).node m).lock.thread = .returned k

/-- `n` waits for a page that `m` has the lock of. -/
def WaitsFor (s : State Node C) (n m : Node) : Prop :=
  ∃ page, WaitsAt s n page ∧ HoldsPage s m page

/-- The thread of `n` waits in `ask_lock`, or in `sync_page`. -/
def Waits (s : State Node C) (n : Node) : Prop :=
  (∃ page, WaitsAt s n page) ∨
    ∃ page writing, ((s.page page).node n).data.thread = .syncing writing

/-- The node whose thread takes the step. -/
def Event.actor : Event Node C → Option Node
  | .lockRegion n _ => some n
  | .unlockRegion n _ => some n
  | .page n _ _ => some n
  | .next n => some n
  | .ret n => some n
  | .deliver _ _ => none

/-- The thread of `n` can take a step. -/
def CanMove [DecidableEq C] (nodeList : Node → List Node) (dsm : BitVec 64) (s : State Node C)
    (n : Node) : Prop :=
  ∃ e, e.actor = some n ∧ (step nodeList dsm s e).isSome = true

/-! ## The invariant -/

/-- The lock status at a point of the thread. -/
def statusOf : PageLock.Thread Node → Option PageLock.LockStatus
  | .idle => some .none
  | .semWait => some .writing
  | .condWait k => some k.toStatus
  | .returned k => some k.toStatus
  | .leaving _ _ => none
  | .left => none

/-- The thread is in no call on the page, and `th` is what it has done to the lock. -/
def Calm (th : PageLock.Thread Node) (p : Sigsegv.Peer Node C) : Prop :=
  p.call = none ∧ p.data.thread = .running ∧ p.lock.thread = th

/-- The thread has called `ask_lock(k)`. -/
def Asked (k : LockType) (th : PageLock.Thread Node) : Prop :=
  th = .returned k ∨ th = .condWait k ∨ th = .semWait ∧ k = .write

/-- The thread is in the body of the loop with `ask_lock(k)` for the page. -/
def Locking (k : LockType) (p : Sigsegv.Peer Node C) : Prop :=
  p.data.thread = .running ∧
    (p.call = some (.askLock k) ∧ p.lock.thread = .idle ∨ p.call = none ∧ Asked k p.lock.thread)

/-- The thread is in the body of the loop with `unlock` for the page. -/
def Unlocking (k : LockType) (p : Sigsegv.Peer Node C) : Prop :=
  p.call = some .unlock ∧ p.data.thread = .running ∧ p.lock.thread = .returned k

/-- The thread is in `sigsev_handler` for the page. -/
def Faulting (k : LockType) (p : Sigsegv.Peer Node C) : Prop :=
  (∃ lockStatus, p.call = some (.sigsegv lockStatus)) ∧
    (∃ writing, p.data.thread = .syncing writing ∨ p.data.thread = .synced writing) ∧
    p.lock.thread = .returned k

/-- The lock status goes with where the thread is. -/
def StatusOk (p : Sigsegv.Peer Node C) : Prop := statusOf p.lock.thread = some p.lock.core.mode

/-- What the thread is doing to a page: nothing at the moment, or what the call says. -/
inductive Place where
  | calm
  | locking (k : LockType)
  | unlocking (k : LockType)
  | faulting
  deriving DecidableEq, Repr

def Ctl.place (c : Ctl) (page : ℕ) : Place :=
  match c.pc with
  | .lockPage r _ p _ => if p = page then .locking r.kind else .calm
  | .unlockPage r p _ => if p = page then .unlocking r.kind else .calm
  | .fault p => if p = page then .faulting else .calm
  | _ => .calm

/-- What the thread of a node is doing to `page`. -/
structure PageInv (dsm : BitVec 64) (c : Ctl) (page : ℕ) (p : Sigsegv.Peer Node C) : Prop where
  status : StatusOk p
  placed : match c.place page with
    | .calm => (∀ k, (page, k) ∈ c.locked dsm → Calm (.returned k) p) ∧
        ((∀ k, (page, k) ∉ c.locked dsm) → Calm .idle p)
    | .locking k => Locking k p
    | .unlocking k => Unlocking k p
    | .faulting => ∀ k, (page, k) ∈ c.locked dsm → Faulting k p

/-- No page is locked twice, and the loop with `ask_lock` goes through the region. -/
structure CtlInv (dsm : BitVec 64) (c : Ctl) : Prop where
  nodup : ((c.locked dsm).map Prod.fst ++ c.pending).Nodup
  whole : match c.pc with
    | .lock r done todo => done ++ todo = r.pages dsm
    | .lockPage r done page todo => done ++ page :: todo = r.pages dsm
    | .fault page => ∃ k, (page, k) ∈ c.locked dsm
    | _ => True

structure Inv (dsm : BitVec 64) (s : State Node C) : Prop where
  ctl : ∀ n, CtlInv dsm (s.ctl n)
  page : ∀ n page, PageInv dsm (s.ctl n) page ((s.page page).node n)

/-- The pages that a call is going to lock are in increasing order and above those that are
locked. -/
def Ascends (dsm : BitVec 64) (c : Ctl) : Prop :=
  match c.pc with
  | .lock _ _ todo => todo.Pairwise (· < ·) ∧ ∀ x ∈ c.locked dsm, ∀ page ∈ todo, x.1 < page
  | .lockPage _ _ page todo => (page :: todo).Pairwise (· < ·) ∧
      ∀ x ∈ c.locked dsm, ∀ p ∈ page :: todo, x.1 < p
  | _ => True

end Dsm.System
