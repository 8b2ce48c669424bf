import Mathlib

/-!
# Pointers that lead to a root

Every element of a type points to one element, possibly to itself. `Leads f a b` says that following
the pointers `f` from `a` reaches `b`, and `Root f p c` that `c` is the one element that points to
itself and that every element leads to.

*Path reversal* works on pointers that may be missing. An element sends a request to the element
that it points to and forgets its pointer; the request is passed on from element to element, and
every element that sees it points to the requester from then on. `Forest` says that the pointers,
together with the requests in flight, still lead to one root.

A root that cannot answer a request remembers the requester as its `next`. `Queued` says that these
pointers form queues without a cycle.
-/

namespace Pointers

variable {α : Type}

/-- Following the pointers from `a` reaches `b`. -/
def Leads (f : α → α) (a b : α) : Prop := ∃ k, f^[k] a = b

/-- Among the elements that satisfy `p`, exactly `c` points to itself, and all lead to it. -/
structure Root (f : α → α) (p : α → Prop) (c : α) : Prop where
  mem : p c
  self : f c = c
  unique : ∀ a, p a → f a = a → a = c
  leads : ∀ a, p a → Leads f a c

/-! ## Path reversal -/

section Reversal

variable [DecidableEq α]

/-- The pointers after `j` has seen the request of `y`, which came from the tree of `r`: `j` points
to `y`, and `r` takes over the pointer of `j`. -/
def reverse (f : α → α) (c y r j : α) : α → α :=
  Function.update (Function.update f r (if j = c then r else f j)) j y

/-- The pointers completed by the requests in flight: an element without a father points to where
the request `(destination, requester)` of its tree is. -/
def completed (father : α → Option α) (att : α → Option (α × α)) (a : α) : α :=
  match father a with
  | some b => b
  | none => ((att a).map Prod.fst).getD a

/-- `att` attaches every request in flight to the root of one tree of the pointers, and the
completed pointers lead to `c`. -/
structure Attached [Fintype α] (father : α → Option α) (flight : List (α × α))
    (att : α → Option (α × α)) (c : α) : Prop where
  free : ∀ a, att a ≠ none → father a = none
  root : father c = none ∧ att c = none
  leads : ∀ a, Leads (completed father att) a c
  requester : ∀ r j y, att r = some (j, y) → Leads (completed father att) y r
  count : ∀ q, flight.count q = ∑ r, if att r = some q then 1 else 0

/-- The pointers and the requests in flight, as pairs of destination and requester, form one tree.
-/
def Forest [Fintype α] (father : α → Option α) (flight : List (α × α)) : Prop :=
  ∃ att c, Attached father flight att c

/-- The attached requests after the root `j` has seen a request that was attached to `r`: the
request of `j`, if it has one, now belongs to the tree of `r`. -/
def inherit (att : α → Option (α × α)) (r j : α) : α → Option (α × α) :=
  Function.update (Function.update att r (att j)) j none

/-- The elements of `S` have seen the request of `y`: they lead to the root that it is attached to.
-/
def Traced (father : α → Option α) (att : α → Option (α × α)) (y : α) (S : Set α) : Prop :=
  ∀ r j, att r = some (j, y) → ∀ a ∈ S, Leads (completed father att) a r

end Reversal

/-! ## Queues -/

/-- Following `next` from `a` ends at `e`. -/
def Ends (next : α → Option α) (a e : α) : Prop :=
  Leads (fun b => (next b).getD b) a e ∧ next e = none

/-- The queues formed by `next` end, and the queue of a requester ends at the root that its request
is attached to. -/
structure Queued (next : α → Option α) (att : α → Option (α × α)) : Prop where
  tail : ∀ r j y, att r = some (j, y) → Ends next y r
  ends : ∀ a, ∃ e, Ends next a e

end Pointers
