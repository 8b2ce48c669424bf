import Psar.Library.Network

/-!
# Systems seen through parts of them

A run of one system is followed in another one: every step of the first is translated into steps of
the second. The states of a network can be projected to a part of every local state and a part of
the messages, and a family of systems that run side by side can be projected to one of them.
-/

namespace Network

/-! ## Runs that are followed -/

section Translate

variable {σ α β : Type}

/-- The steps of a run one after the other, each one translated in the state in which it is
taken. -/
def translate (next : σ → α → Option σ) (tr : σ → α → List β) : σ → List α → List β
  | _, [] => []
  | s, a :: as => tr s a ++ ((next s a).map fun s' => translate next tr s' as).getD []

end Translate

/-! ## Several actions of one node -/

section Act

variable {ι S M A : Type}

/-- The node `i` takes the actions `as` one after the other; the result is its new local state and
all messages sent. -/
def actRun (P : Protocol ι S M A) (i : ι) : S → List A → Option (S × List M)
  | x, [] => some (x, [])
  | x, a :: as =>
    (P.act i x a).bind fun r => (actRun P i r.1 as).map fun r' => (r'.1, r.2 ++ r'.2)

end Act

/-! ## Parts of a network -/

section Project

variable {ι S S' M M' : Type}

/-- The part `f` of every local state, and the messages that `g` keeps. -/
def Net.project (f : S → S') (g : M → Option M') (s : Net ι S M) : Net ι S' M' :=
  ⟨fun i => f (s.node i), s.msgs.filterMap g⟩

/-- No two messages are kept as the same one. -/
def Separates (g : M → Option M') : Prop := ∀ m m' x, g m = some x → g m' = some x → m = m'

end Project

/-! ## Systems side by side -/

section Family

variable {κ σ α : Type} [DecidableEq κ]

/-- One of the systems takes a step. -/
def familyStep (next : σ → α → Option σ) (s : κ → σ) (e : κ × α) : Option (κ → σ) :=
  (next (s e.1) e.2).map (Function.update s e.1)

/-- The steps of the system `k`. -/
def stepsOf (k : κ) (es : List (κ × α)) : List α :=
  es.filterMap fun e => if e.1 = k then some e.2 else none

end Family

end Network
