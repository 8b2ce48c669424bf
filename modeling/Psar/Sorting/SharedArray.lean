import Psar.Dsm.Regions
import Psar.Sorting.ParallelSort

/-!
# The array in the distributed memory

`main_node` and the `worker_node`s on the distributed memory: a page has the elements of the array
from its first index on, and a region loads and stores whole pages.
-/

namespace Sorting

open Transactions (Access)

variable {α Node : Type}

/-- The pages of the array. -/
def pages (tab : List α) : ℕ → List α := segment tab pageSize.toNat

/-- Where the nodes are: the region that `main_node` locks next, and the workers that have ended. -/
structure Control where
  main : MainPc
  ended : List ℕ
  deriving DecidableEq, Repr

def Program.control (s : Program α) : Control := ⟨s.main, s.ended⟩

/-- The region `e` is still to come. -/
def Control.enabled (a : Args) (c : Control) : Step → Prop
  | .mainNode => c.main ≠ .leave
  | .workerNode nodeId => 1 ≤ nodeId ∧ nodeId ≤ a.workerCount ∧ nodeId ∉ c.ended

instance (a : Args) (c : Control) : ∀ e, Decidable (c.enabled a e)
  | .mainNode => inferInstanceAs (Decidable (c.main ≠ .leave))
  | .workerNode nodeId =>
    inferInstanceAs (Decidable (1 ≤ nodeId ∧ nodeId ≤ a.workerCount ∧ nodeId ∉ c.ended))

/-- What a node loads and stores in the region `e`, which takes the nodes from `c` to `c'`: whatever
the array is, if it is what the loads have found, the stores leave the array that the region
leaves. -/
def Region [LinearOrder α] [Zero α] (a : Args) (lib : CLib α) (e : Step)
    (accesses : List (Access ℕ (List α))) (c c' : Control) : Prop :=
  c.enabled a e ∧ ∀ (tab : List α) (content : ℕ → List α) (s' : Program α),
    tab.length = a.tabSize → Network.run Access.step (pages tab) accesses = some content →
    (Program.mk tab c.main c.ended []).step a lib e = some s' →
    content = pages s'.tab ∧ c' = s'.control

/-- The nodes go from `c` to `c'` while they access the memory in the regions `xs`; the region `e`
is one of the node `who e`. -/
inductive Performs [LinearOrder α] [Zero α] (a : Args) (lib : CLib α) (who : Step → Node) :
    Control → List (Node × List (Access ℕ (List α))) → Control → Prop where
  | nil (c : Control) : Performs a lib who c [] c
  | cons {c c₁ c' : Control} {e : Step} {accesses : List (Access ℕ (List α))}
      {xs : List (Node × List (Access ℕ (List α)))} (hregion : Region a lib e accesses c c₁)
      (hrest : Performs a lib who c₁ xs c') : Performs a lib who c ((who e, accesses) :: xs) c'

end Sorting
