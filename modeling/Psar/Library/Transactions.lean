import Psar.Library.Network

/-!
# Locked regions as transactions

Processes share a memory of pages. In the machine with locks they lock the pages one after the
other, to read or to write, enter a section with a region of pages that they have locked, and load
from and store to the memory itself until they leave the section.

In the machine with transactions there are no locks: who enters a section gets a copy of the memory,
loads from the copy and stores to it, and when the section is left the pages of the region are
written back. Leaving fails if the memory has changed in the region since.

So the sections that have been left can be run one after the other, in the order in which they were
left.
-/

namespace Transactions

/-- How a page is locked. -/
inductive Kind where
  | read
  | write
  deriving DecidableEq, Repr

/-- What a process does. -/
inductive Event (N P C : Type) where
  | lock (n : N) (p : P) (k : Kind)
  | unlock (n : N) (p : P)
  | enter (n : N) (region : List P)
  | load (n : N) (p : P) (c : C)
  | store (n : N) (p : P) (c : C)
  | exit (n : N)
  deriving DecidableEq, Repr

variable {N P C : Type} [DecidableEq N] [DecidableEq P] [DecidableEq C]

/-! ## The machine with locks -/

/-- The memory, the locks that the processes have, and the regions of their sections. -/
structure Locked (N P C : Type) where
  content : P → C
  held : N → P → Option Kind
  region : N → Option (List P)

/-- Nothing is locked. -/
def Locked.init (content : P → C) : Locked N P C := ⟨content, fun _ _ => none, fun _ => none⟩

/-- Every other process that has locked `p` lets `n` lock it too. -/
def Locked.admits (s : Locked N P C) (n : N) (p : P) (k : Kind) : Prop :=
  ∀ m, m ≠ n → ∀ k', s.held m p = some k' → k = .read ∧ k' = .read

def Locked.enabled (s : Locked N P C) : Event N P C → Prop
  | .lock n p k => s.held n p = none ∧ s.admits n p k
  | .unlock n p => s.held n p ≠ none ∧ ∀ region, s.region n = some region → p ∉ region
  | .enter n region => s.region n = none ∧ ∀ p ∈ region, s.held n p ≠ none
  | .load n p c => (∃ region, s.region n = some region ∧ p ∈ region) ∧ c = s.content p
  | .store n p _ => (∃ region, s.region n = some region ∧ p ∈ region) ∧ s.held n p = some .write
  | .exit n => s.region n ≠ none

def Locked.setHeld (s : Locked N P C) (n : N) (p : P) (k : Option Kind) : Locked N P C :=
  { s with held := Function.update s.held n (Function.update (s.held n) p k) }

def Locked.setRegion (s : Locked N P C) (n : N) (region : Option (List P)) : Locked N P C :=
  { s with region := Function.update s.region n region }

def Locked.after (s : Locked N P C) : Event N P C → Locked N P C
  | .lock n p k => s.setHeld n p (some k)
  | .unlock n p => s.setHeld n p none
  | .enter n region => s.setRegion n (some region)
  | .load _ _ _ => s
  | .store _ p c => { s with content := Function.update s.content p c }
  | .exit n => s.setRegion n none

open Classical in
noncomputable def Locked.step (s : Locked N P C) (e : Event N P C) : Option (Locked N P C) :=
  if s.enabled e then some (s.after e) else none

/-! ## The machine with transactions -/

/-- A section that has been entered: its region, the memory at that time, and the copy. -/
structure Section (P C : Type) where
  region : List P
  before : P → C
  copy : P → C

/-- The memory, and the sections. -/
structure Memory (N P C : Type) where
  content : P → C
  sec : N → Option (Section P C)

def Memory.init (content : P → C) : Memory N P C := ⟨content, fun _ => none⟩

def Memory.setSec (t : Memory N P C) (n : N) (x : Option (Section P C)) : Memory N P C :=
  { t with sec := Function.update t.sec n x }

/-- The memory when the section is left. -/
def Section.commit (x : Section P C) (content : P → C) : P → C :=
  fun p => if p ∈ x.region then x.copy p else content p

/-- The memory has not changed in the region. -/
def Section.Valid (x : Section P C) (content : P → C) : Prop :=
  ∀ p ∈ x.region, x.before p = content p

instance (x : Section P C) (content : P → C) : Decidable (x.Valid content) :=
  inferInstanceAs (Decidable (∀ p ∈ x.region, x.before p = content p))

def Memory.step (t : Memory N P C) : Event N P C → Option (Memory N P C)
  | .lock _ _ _ => some t
  | .unlock _ _ => some t
  | .enter n region =>
    if (t.sec n).isNone then some (t.setSec n (some ⟨region, t.content, t.content⟩)) else none
  | .load n p c =>
    (t.sec n).bind fun x => if p ∈ x.region ∧ c = x.copy p then some t else none
  | .store n p c =>
    (t.sec n).bind fun x =>
      if p ∈ x.region then some (t.setSec n (some { x with copy := Function.update x.copy p c }))
      else none
  | .exit n =>
    (t.sec n).bind fun x =>
      if x.Valid t.content then some { t.setSec n none with content := x.commit t.content }
      else none

/-! ## One section after the other -/

/-- What a section does to the memory. -/
inductive Access (P C : Type) where
  | load (p : P) (c : C)
  | store (p : P) (c : C)
  deriving DecidableEq, Repr

def Access.page : Access P C → P
  | .load p _ => p
  | .store p _ => p

/-- The access to the memory itself; a load has to find what it says. -/
def Access.step (content : P → C) : Access P C → Option (P → C)
  | .load p c => if c = content p then some content else none
  | .store p c => some (Function.update content p c)

/-- What the sections of a run have done: those that have not been left, and those that have, in
the order in which they were left. -/
structure History (N P C : Type) where
  opened : N → List (Access P C)
  left : List (N × List (Access P C))

def History.init : History N P C := ⟨fun _ => [], []⟩

def History.access (h : History N P C) (n : N) (a : Access P C) : History N P C :=
  { h with opened := Function.update h.opened n (h.opened n ++ [a]) }

def History.next (h : History N P C) : Event N P C → History N P C
  | .lock _ _ _ => h
  | .unlock _ _ => h
  | .enter n _ => { h with opened := Function.update h.opened n [] }
  | .load n p c => h.access n (.load p c)
  | .store n p c => h.access n (.store p c)
  | .exit n => { h with left := h.left ++ [(n, h.opened n)] }

/-- The sections that have been left, one after the other. -/
def sections (es : List (Event N P C)) : List (N × List (Access P C)) :=
  (es.foldl History.next History.init).left

/-- The sections run one after the other, each one as a whole. -/
def serialRun (content : P → C) (xs : List (N × List (Access P C))) : Option (P → C) :=
  Network.run Access.step content (xs.flatMap Prod.snd)

/-- The sections that have been left give the memory, and those that have not give their copies. -/
structure Serial (content : P → C) (h : History N P C) (t : Memory N P C) : Prop where
  left : serialRun content h.left = some t.content
  opened : ∀ n x, t.sec n = some x →
    Network.run Access.step x.before (h.opened n) = some x.copy
  inside : ∀ n x, t.sec n = some x → ∀ a ∈ h.opened n, a.page ∈ x.region

/-! ## The relation -/

/-- Two processes have the same page locked only for reading. -/
def Locked.Compatible (s : Locked N P C) : Prop :=
  ∀ n m p k k', m ≠ n → s.held n p = some k → s.held m p = some k' → k = .read ∧ k' = .read

/-- `n` is in a section in which it may write to `p`. -/
def Locked.Writes (s : Locked N P C) (n : N) (p : P) : Prop :=
  (∃ region, s.region n = some region ∧ p ∈ region) ∧ s.held n p = some .write

/-- The memory with transactions `t` is the memory with locks `s`, where the stores of the sections
that have not been left are only in their copies. -/
structure Follows (s : Locked N P C) (t : Memory N P C) : Prop where
  compatible : s.Compatible
  held : ∀ n region, s.region n = some region → ∀ p ∈ region, s.held n p ≠ none
  region : ∀ n, s.region n = (t.sec n).map Section.region
  before : ∀ n x, t.sec n = some x → x.Valid t.content
  copy : ∀ n x, t.sec n = some x → ∀ p ∈ x.region, x.copy p = s.content p
  rest : ∀ p, (∀ n, ¬ s.Writes n p) → t.content p = s.content p

end Transactions
