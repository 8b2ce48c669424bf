import Psar.Library.Network
import Psar.Sorting.MergeSegments
import Psar.Sorting.QuickSort

/-!
# The parallel sort

`main_node` and the `worker_node`s of `main.c` share the array. What a node does between `lock_read`
or `lock_write` and the call that unlocks is one step here, as regions are transactions; the steps
of the nodes come in any order, since they only wait for each other by `sleep`.
-/

namespace Sorting

open Cells (write)

/-! ## `main` -/

def pageSize : BitVec 64 := 4096

/-- The arguments of the nodes, once `main` has checked its own. -/
structure Args where
  workerCount : ℕ
  tabSize : ℕ
  workerCount_pos : 0 < workerCount
  workerCount_le : workerCount ≤ 100

/-- `main` up to `fork`, where `port`, `number` and `size` are what `atoi` gives. The number of
nodes and the size are converted to `size_t`. -/
def mainArgs (argc : ℕ) (port number size : BitVec 32) : Except String Args :=
  if argc ≠ 4 then .error "Usage: %s <port> <number_of_nodes> <tab_size>"
  else if ¬ 0 < port.toInt then .error "Port must be greater than 0"
  else if ¬ port.toInt < 65536 then .error "Port must be less than 65536"
  else
    let numberOfNode := number.signExtend 64
    if hle : ¬ numberOfNode.toNat ≤ 100 then
      .error "Number of nodes must be less than or equal to 100"
    else if hpos : ¬ 0 < numberOfNode.toNat then .error "Number of nodes must be greater than 0"
    else .ok ⟨numberOfNode.toNat, (size.signExtend 64 * pageSize * numberOfNode).toNat,
      not_not.mp hpos, not_not.mp hle⟩

/-- `segment_size`. -/
def Args.segmentSize (a : Args) : ℕ := a.tabSize / a.workerCount

/-- The array consists of segments that are not empty, and it can be indexed with an `int`. -/
structure Args.Fits (a : Args) : Prop where
  dvd : a.workerCount ∣ a.tabSize
  pos : 0 < a.tabSize
  lt : a.tabSize < 2 ^ 31

/-! ## The regions -/

variable {α : Type} [LinearOrder α]

/-- What the nodes get from the C library: the values of `rand`, converted to `char`, what the
memory from `malloc` holds, and a bound for the depth of the recursion. -/
structure CLib (α : Type) where
  rand : ℕ → α
  garbage : ℕ → α
  fuel : ℕ

omit [LinearOrder α] in
/-- The loop that fills the array, with at most `fuel` turns, after `k` calls of `rand`. The index
is a `char`, which is signed, and compared as a `size_t`. -/
def fillLoop (rand : ℕ → α) (tabSize : ℕ) : ℕ → ℕ → BitVec 8 → List α → Option (List α)
  | 0, _, _, _ => none
  | fuel + 1, k, i, tab =>
    if (i.signExtend 64).toNat < tabSize then do
      let tab ← write tab i.toInt (rand k)
      fillLoop rand tabSize fuel (k + 1) (i + 1) tab
    else some tab

/-- The loop over the segments with `n` turns left; the result is `tab_is_sorted`. -/
def pollLoop (tab : List α) (segmentSize : ℕ) : ℕ → ℕ → Bool → Option Bool
  | 0, _, tabIsSorted => some tabIsSorted
  | n + 1, i, tabIsSorted => do
    if ← isSorted (segment tab segmentSize i) segmentSize then
      pollLoop tab segmentSize n (i + 1) tabIsSorted
    else pollLoop tab segmentSize n (i + 1) false

/-- The region that `main_node` locks next, or its end. -/
inductive MainPc where
  | fill
  | poll
  | merge
  | check
  | leave
  deriving DecidableEq, Repr

/-- A region of `main_node`: the array that it leaves, and where `main_node` goes on. -/
def mainNode [Zero α] (a : Args) (lib : CLib α) (tab : List α) : MainPc → Call (List α × MainPc)
  | .fill => do
    let tab ← checked (fillLoop lib.rand a.tabSize lib.fuel 0 0 tab)
    return (tab, .poll)
  | .poll => do
    let tabIsSorted ← checked (pollLoop tab a.segmentSize a.workerCount 0 true)
    return (tab, if tabIsSorted then .merge else .poll)
  | .merge => do
    let tab ← mergeSegments (some lib.garbage) true tab a.tabSize a.segmentSize
    return (tab, .check)
  | .check => do
    let tabIsSorted ← checked (isSorted tab a.tabSize)
    ensureError tabIsSorted "The array is not sorted"
    return (tab, .leave)
  | .leave => checked none

/-- The region of `worker_node`: `node_tab` is its segment, and the rest of the array stays. -/
def workerNode (a : Args) (lib : CLib α) (tab : List α) (nodeId : ℕ) : Option (List α) :=
  let tabOffset := (nodeId - 1) * a.segmentSize
  (sort lib.fuel (segment tab a.segmentSize (nodeId - 1)) a.segmentSize).map fun nodeTab =>
    tab.take tabOffset ++ nodeTab ++ tab.drop (tabOffset + a.segmentSize)

/-! ## All nodes -/

/-- The array, where `main_node` is, the workers that have unlocked their segments, and the errors
that are logged. -/
structure Program (α : Type) where
  tab : List α
  main : MainPc
  ended : List ℕ
  log : List String
  deriving DecidableEq, Repr

inductive Step where
  | mainNode
  | workerNode (nodeId : ℕ)
  deriving DecidableEq, Repr

def Program.step [Zero α] (a : Args) (lib : CLib α) (s : Program α) : Step → Option (Program α)
  | .mainNode => (mainNode a lib s.tab s.main s.log).map fun r =>
    { s with tab := r.1.1, main := r.1.2, log := r.2 }
  | .workerNode nodeId =>
    if 1 ≤ nodeId ∧ nodeId ≤ a.workerCount ∧ nodeId ∉ s.ended then
      (workerNode a lib s.tab nodeId).map fun tab =>
        { s with tab := tab, ended := nodeId :: s.ended }
    else none

/-- The array is mapped with zeros. -/
def Program.init [Zero α] (a : Args) : Program α := ⟨List.replicate a.tabSize 0, .fill, [], []⟩

/-- The array that the first region of `main_node` leaves. -/
def filled [Zero α] (a : Args) (lib : CLib α) : List α :=
  (List.range (min 128 a.tabSize)).map lib.rand ++ List.replicate (a.tabSize - 128) 0

/-- A worker locks its segment when the array has been filled. -/
def afterFill (s : Program α) : Step → Bool
  | .mainNode => true
  | .workerNode _ => s.main ≠ .fill

/-! ## The invariant -/

/-- The segment of every worker is in order. -/
def SegmentsSorted (a : Args) (tab : List α) : Prop :=
  ∀ k < a.workerCount, (segment tab a.segmentSize k).Pairwise (· ≤ ·)

instance (a : Args) (tab : List α) : Decidable (SegmentsSorted a tab) :=
  inferInstanceAs (Decidable (∀ k < a.workerCount, (segment tab a.segmentSize k).Pairwise (· ≤ ·)))

/-- Where `main_node` goes on, if `tabIsSorted` is what it finds in the loop. -/
def MainPc.next (tabIsSorted : Bool) : MainPc → MainPc
  | .fill => .poll
  | .poll => if tabIsSorted then .merge else .poll
  | .merge => .check
  | .check => .leave
  | .leave => .leave

/-- The array at every point of `main_node`. -/
def Expected [Zero α] (a : Args) (lib : CLib α) (tab : List α) : MainPc → Prop
  | .fill => tab = List.replicate a.tabSize 0
  | .poll => tab.Perm (filled a lib)
  | .merge => tab.Perm (filled a lib) ∧ SegmentsSorted a tab
  | .check => tab.Perm (filled a lib) ∧ tab.Pairwise (· ≤ ·)
  | .leave => tab.Perm (filled a lib) ∧ tab.Pairwise (· ≤ ·)

structure Inv [Zero α] (a : Args) (lib : CLib α) (s : Program α) : Prop where
  log : s.log = []
  tab : Expected a lib s.tab s.main

/-- The workers that have ended since the array was filled have left their segments in order. -/
def EndedSorted (a : Args) (s : Program α) : Prop :=
  (s.main = .fill → s.ended = []) ∧
    ∀ nodeId ∈ s.ended, 1 ≤ nodeId ∧ (s.main = .poll →
      (segment s.tab a.segmentSize (nodeId - 1)).Pairwise (· ≤ ·))

end Sorting
