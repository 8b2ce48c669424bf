import Mathlib

/-!
# Lists that remember when their entries were added

Two entries of a list with the same value are told apart by the moment at which they were added.
-/

namespace Stamped

variable {α : Type}

/-- An entry, and the number of additions before it. -/
structure Entry (α : Type) where
  time : ℕ
  val : α
  deriving DecidableEq, Repr

/-- A list of entries, the newest one first, and the number of additions so far. -/
structure History (α : Type) where
  now : ℕ
  entries : List (Entry α)
  newestFirst : entries.Pairwise fun a b => b.time < a.time
  before : ∀ e ∈ entries, e.time < now

/-- The list without the times. -/
def History.vals (h : History α) : List α := h.entries.map Entry.val

def History.empty : History α := ⟨0, [], List.Pairwise.nil, by simp⟩

/-- Adds an entry at the head of the list. -/
def History.push (h : History α) (a : α) : History α where
  now := h.now + 1
  entries := ⟨h.now, a⟩ :: h.entries
  newestFirst := List.pairwise_cons.mpr ⟨h.before, h.newestFirst⟩
  before := by
    intro e he
    rcases List.mem_cons.mp he with rfl | he
    · exact Nat.lt_succ_self _
    · exact Nat.lt_succ_of_lt (h.before e he)

/-- Removes the first entry from the head with the property `p`. -/
def History.eraseP (h : History α) (p : α → Bool) : History α where
  now := h.now
  entries := h.entries.eraseP fun e => p e.val
  newestFirst := h.newestFirst.sublist List.eraseP_sublist
  before := fun e he => h.before e (List.mem_of_mem_eraseP he)

/-- Of the entries with the property `p`, `e` was added first. -/
def History.IsEarliest (h : History α) (p : α → Bool) (e : Entry α) : Prop :=
  e ∈ h.entries ∧ p e.val ∧ ∀ e' ∈ h.entries, p e'.val → e.time ≤ e'.time

/-- Of the entries with the property `p`, `e` was added last. -/
def History.IsLatest (h : History α) (p : α → Bool) (e : Entry α) : Prop :=
  e ∈ h.entries ∧ p e.val ∧ ∀ e' ∈ h.entries, p e'.val → e'.time ≤ e.time

/-- At most one entry has the property `p`. -/
def History.AtMostOne (h : History α) (p : α → Bool) : Prop :=
  ∀ a ∈ h.entries, ∀ b ∈ h.entries, p a.val → p b.val → a = b

end Stamped
