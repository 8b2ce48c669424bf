import Psar.Core.RequestQueue
import Psar.Library.Proofs.NetworkProofs
import Psar.Library.Proofs.StampedProofs

/-!
# Proofs: the request list of a page as a queue

Requests are added where the first one is taken, and the last writer is looked for from the other
end. So the list is a stack, and a queue only as long as it has at most one entry.
-/

namespace RequestQueue

open PageLock (CoreInfo LockType Request)
open Stamped (Entry History)

variable {Node : Type} [DecidableEq Node] {q : Page Node}

/-! ## The entries and the code -/

omit [DecidableEq Node] in
theorem lastWriter_eq_none_iff :
    q.lastWriter = none ↔ ∀ e ∈ q.history.entries, e.val.mode ≠ .write := by
  unfold Page.lastWriter isWrite
  simp

omit [DecidableEq Node] in
/-- The head of the list is what a search for any entry finds. -/
theorem firstEntry_eq_find? :
    q.firstEntry = q.history.entries.find? fun e => isAny e.val := by
  unfold Page.firstEntry
  cases q.history.entries with
  | nil => rfl
  | cons e es => simp [isAny]

/-! ## The four operations -/

omit [DecidableEq Node] in
/-- The first entry is the earliest one if and only if there is at most one. -/
theorem firstEntry_isEarliest_iff :
    (∀ e, q.firstEntry = some e → q.history.IsEarliest isAny e) ↔
      q.history.AtMostOne isAny := by
  rw [firstEntry_eq_find?]
  exact History.find?_isEarliest_iff

omit [DecidableEq Node] in
/-- `find_last_writer` returns the latest `WRITE` entry if and only if there is at most one. -/
theorem lastWriter_isLatest_iff :
    (∀ e, q.lastWriter = some e → q.history.IsLatest isWrite e) ↔ q.history.AtMostOne isWrite :=
  History.find?_reverse_isLatest_iff

/-- `remove_request(who)` removes the earliest entry of `who` if and only if there is at most one.
-/
theorem removeRequest_earliest_iff (who : Node) :
    (∀ e, q.history.IsEarliest (isOf who) e → (q.removeRequest who).history.entries =
        q.history.entries.filter fun e' => e'.time ≠ e.time) ↔ q.history.AtMostOne (isOf who) :=
  History.eraseP_earliest_iff

omit [DecidableEq Node] in
theorem atMostOne_mono {p : Request Node → Bool} (h : q.history.AtMostOne isAny) :
    q.history.AtMostOne p :=
  fun a ha b hb _ _ => h a ha b hb rfl rfl

theorem fifo_iff : Fifo q ↔ q.history.AtMostOne isAny := by
  constructor
  · intro h
    exact firstEntry_isEarliest_iff.mp h.first
  · intro h
    exact ⟨firstEntry_isEarliest_iff.mpr h, lastWriter_isLatest_iff.mpr (atMostOne_mono h),
      lastWriter_eq_none_iff, fun who => (removeRequest_earliest_iff who).mpr (atMostOne_mono h)⟩

/-! ## Sequences of operations -/

/-- After an addition there is at most one entry if and only if the list was empty. -/
theorem fifo_addRequest_iff {who : Node} {mode : LockType} :
    Fifo (q.addRequest who mode) ↔ q.core.request = [] := by
  rw [fifo_iff, ← q.vals, History.vals, List.map_eq_nil_iff]
  constructor
  · intro h
    by_contra hne
    obtain ⟨e, he⟩ := List.exists_mem_of_ne_nil _ hne
    have heq := h e (List.mem_cons_of_mem _ he) ⟨q.history.now, ⟨mode, who⟩⟩ List.mem_cons_self
      rfl rfl
    have hlt := q.history.before e he
    rw [heq] at hlt
    exact Nat.lt_irrefl _ hlt
  · intro hnil a ha b hb _ _
    have hsingle : (q.addRequest who mode).history.entries = [⟨q.history.now, ⟨mode, who⟩⟩] :=
      congrArg (List.cons _) hnil
    rw [hsingle, List.mem_singleton] at ha hb
    rw [ha, hb]

theorem fifo_removeRequest (h : Fifo q) (who : Node) : Fifo (q.removeRequest who) := by
  rw [fifo_iff] at h ⊢
  intro a ha b hb
  exact h a (List.mem_of_mem_eraseP ha) b (List.mem_of_mem_eraseP hb)

/-- An operation on a queue gives a queue if and only if it is no addition to a list with entries.
-/
theorem fifo_apply_iff (h : Fifo q) (op : Op Node) : Fifo (q.apply op) ↔ alone q op := by
  cases op with
  | addRequest who mode => exact fifo_addRequest_iff
  | removeRequest who => exact iff_of_true (fifo_removeRequest h who) trivial

theorem fifo_iff_meets (h : Fifo q) (ops : List (Op Node)) :
    (∀ ops₁, ops₁ <+: ops → ∀ q', Network.run step q ops₁ = some q' → Fifo q') ↔
      Network.Meets step alone q ops := by
  induction ops generalizing q with
  | nil =>
    refine iff_of_true ?_ trivial
    intro ops₁ hops₁ q' hq'
    rw [List.prefix_nil.mp hops₁] at hq'
    cases hq'
    exact h
  | cons op ops ih =>
    rw [Network.forall_prefix_cons]
    constructor
    · rintro ⟨-, hall⟩
      have hfifo := hall (q.apply op) rfl [] List.nil_prefix _ rfl
      refine ⟨(fifo_apply_iff h op).mp hfifo, ?_⟩
      rintro _ ⟨⟩
      exact (ih hfifo).mp (hall (q.apply op) rfl)
    · rintro ⟨halone, hmeets⟩
      refine ⟨h, ?_⟩
      rintro _ ⟨⟩
      exact (ih ((fifo_apply_iff h op).mpr halone)).mpr (hmeets _ rfl)

theorem fifo_empty (c : CoreInfo Node) : Fifo (Page.empty c) := by
  rw [fifo_iff]
  intro a ha
  exact absurd ha List.not_mem_nil

/-- The request list of an initially empty page is a queue after every operation of a sequence if
and only if requests are added only to an empty list. -/
theorem request_list_fifo_iff (c : CoreInfo Node) (ops : List (Op Node)) :
    (∀ ops₁, ops₁ <+: ops → ∀ q, Network.run step (Page.empty c) ops₁ = some q → Fifo q) ↔
      Network.Meets step alone (Page.empty c) ops :=
  fifo_iff_meets (fifo_empty c) ops

/-- The requests of two writers: the second one is the first entry, the first one the last writer.
-/
theorem request_list_two_writers :
    ∃ q, Network.run step (Page.empty (PageLock.initCore (0 : Fin 3)))
        [.addRequest 1 .write, .addRequest 2 .write] = some q ∧
      q.core.request.head? = some ⟨.write, 2⟩ ∧
      PageLock.findLastWriter q.core = some ⟨.write, 1⟩ ∧ ¬ Fifo q := by
  refine ⟨_, rfl, rfl, rfl, ?_⟩
  intro h
  have hle := (h.first _ rfl).2.2 ⟨0, ⟨.write, 1⟩⟩ (by decide) rfl
  exact absurd hle (by decide)

end RequestQueue
