import Psar.DataTransfer.Page
import Psar.Library.Proofs.NetworkProofs

/-!
# Proofs: what the functions of the data transfer can do

One lemma for each function that lists its outcomes, together with the tests that lead to them.
-/

namespace DataTransfer

open PageLock (LockType LockStatus)

variable {Node C : Type} {p p' : Peer Node C}

/-! ## Protection -/

@[simp] theorem Prot.allows_true {b : Prot} : b.allows true = true ↔ b = .readWrite := by
  cases b <;> simp [Prot.allows]

@[simp] theorem Prot.allows_false {b : Prot} : b.allows false = true ↔ b ≠ .none := by
  cases b <;> simp [Prot.allows]

@[simp] theorem memoryLock_eq (p : Peer Node C) : memoryLock p = { p with prot := .none } := rfl

/-- The reset never gives the permission to write. -/
theorem memoryLockReset_eq (p : Peer Node C) :
    ∃ b, b ≠ .readWrite ∧ memoryLockReset p = { p with prot := b } := by
  cases hm : p.mode with
  | none => exact ⟨.none, by simp, by simp [memoryLockReset, memoryProtect, hm]⟩
  | reading => exact ⟨.read, by simp, by simp [memoryLockReset, memoryProtect, hm]⟩
  | writing => exact ⟨.read, by simp, by simp [memoryLockReset, memoryProtect, hm]⟩

/-! ## Handlers -/

/-- `update_page` takes the page and the owner over, and wakes the thread that waits. -/
theorem updatePage_eq (p : Peer Node C) (o : Node) (page : C) :
    ∃ b st, b ≠ .readWrite ∧ updatePage p o page =
      { p with owner := o, content := page, prot := b, predicate := true, state := st } := by
  obtain ⟨b, hb, heq⟩ := memoryLockReset_eq { p with owner := o, content := page }
  cases hpred : p.predicate with
  | true =>
    refine ⟨b, p.state, hb, ?_⟩
    simp only [updatePage, heq]
    simp [hpred]
  | false =>
    refine ⟨b, true, hb, ?_⟩
    simp only [updatePage, heq]
    simp [hpred, signalPageNoLock]

variable [DecidableEq Node] {me : Node}

/-- `ASK_PAGE_handler` answers at the owner, and passes the request on elsewhere. -/
theorem askPageHandler_cases (me : Node) (p : Peer Node C) (y : Node) :
    (p.owner = me ∧ ∃ b, b ≠ .readWrite ∧
      askPageHandler me p y = ({ p with prot := b }, [.recvPage y me p.content])) ∨
    (p.owner ≠ me ∧ askPageHandler me p y = (p, [.askPage p.owner y])) := by
  by_cases ho : p.owner = me
  · obtain ⟨b, hb, heq⟩ := memoryLockReset_eq p
    exact Or.inl ⟨ho, b, hb, by simp [askPageHandler, transferPage, ho, heq]⟩
  · exact Or.inr ⟨ho, by simp [askPageHandler, ho]⟩

/-! ## The page fault -/

/-- `sync_page` returns at once with a copy that is taken to be valid, and asks for the page
otherwise. -/
theorem sigsevHandler_cases {writing : Bool} {r : Peer Node C × List (Msg Node C)}
    (h : sigsevHandler me p writing = some r) :
    p.thread = .running ∧ p.mode ≠ .none ∧ (writing = true → p.mode = .writing) ∧
    (((p.owner = me ∨ p.state = true) ∧ r = ({ p with thread := .synced writing }, [])) ∨
    (p.owner ≠ me ∧ p.state = false ∧
      r = ({ p with predicate := false, thread := .syncing writing }, [.askPage p.owner me]))) := by
  unfold sigsevHandler at h
  split at h
  · rename_i hcond
    obtain ⟨hth, -, hmode, hread⟩ := hcond
    obtain rfl := Option.some.inj h
    have hwrite : writing = true → p.mode = .writing := by
      intro hw
      cases hm : p.mode with
      | none => exact absurd hm hmode
      | reading => simp [hread hm] at hw
      | writing => rfl
    refine ⟨hth, hmode, hwrite, ?_⟩
    by_cases hvalid : p.owner = me ∨ p.state = true
    · exact Or.inl ⟨hvalid, by simp [syncPage, hvalid]⟩
    · obtain ⟨ho, hs⟩ := not_or.mp hvalid
      exact Or.inr ⟨ho, by simpa using hs, by simp [syncPage, ho, hs]⟩
  · cases h

/-- A page fault happens on a page that is not writable, and leaves its protection as it is. -/
theorem sigsevHandler_prot {writing : Bool} {r : Peer Node C × List (Msg Node C)}
    (h : sigsevHandler me p writing = some r) :
    p.prot ≠ .readWrite ∧ r.1.prot = p.prot := by
  constructor
  · rintro hprot
    simp [sigsevHandler, hprot, Prot.allows] at h
  · obtain ⟨-, -, -, ⟨-, rfl⟩ | ⟨-, -, rfl⟩⟩ := sigsevHandler_cases h
    · rfl
    · rfl

omit [DecidableEq Node] in
theorem wake_eq_some (h : wake p = some p') :
    ∃ writing, p.thread = .syncing writing ∧ p.predicate = true ∧
      p' = { p with thread := .synced writing } := by
  cases hth : p.thread with
  | syncing writing =>
    simp only [wake, hth] at h
    split at h
    · rename_i hpred
      exact ⟨writing, rfl, hpred, by simpa [← hpred] using h.symm⟩
    · cases h
  | _ => simp [wake, hth] at h

omit [DecidableEq Node] in
theorem protect_cases (h : protect p = some p') :
    (p.thread = .synced true ∧ p.mode = .writing ∧
      p' = { p with prot := .readWrite, thread := .writable }) ∨
    (∃ writing, p.thread = .synced writing ∧ p' = { p with prot := .read, thread := .running }) := by
  cases hth : p.thread with
  | synced writing =>
    simp only [protect, hth] at h
    split at h
    · rename_i hcond
      obtain ⟨rfl, hmode⟩ := hcond
      exact Or.inl ⟨rfl, hmode, by simpa [memoryProtect] using h.symm⟩
    · exact Or.inr ⟨writing, rfl, by simpa [memoryProtect] using h.symm⟩
  | _ => simp [protect, hth] at h

theorem publish_eq_some {nodeList : List Node} {r : Peer Node C × List (Msg Node C)}
    (h : publish me nodeList p = some r) : p.thread = .writable ∧
      r = ({ p with owner := me, state := true, thread := .running },
        sendInvalidation me nodeList) := by
  unfold publish at h
  split at h
  · rename_i hth
    exact ⟨hth, by simpa [setNewOwner] using h.symm⟩
  · cases h

omit [DecidableEq Node] in
/-- Every message that `send_invalidation` sends is an invalidation by the node to one of its list.
-/
theorem mem_sendInvalidation {nodeList : List Node} {m : Msg Node C} :
    m ∈ sendInvalidation me nodeList ↔ ∃ n ∈ nodeList, m = .invalidation n me := by
  simp [sendInvalidation, eq_comm]

/-! ## The critical section and the accesses -/

section Accesses

omit [DecidableEq Node]

theorem lock_cases {k : LockType} (h : lock p k = some p') : p.thread = .running ∧
    ((p.mode = .none ∧ p' = { p with prot := .none, mode := k.toStatus, thread := .asking }) ∨
    (p.mode ≠ .none ∧ p' = { p with prot := .none })) := by
  unfold lock at h
  split at h
  · rename_i hth
    refine ⟨hth, ?_⟩
    split at h
    · rename_i hmode
      exact Or.inl ⟨hmode, by simpa using h.symm⟩
    · rename_i hmode
      exact Or.inr ⟨hmode, by simpa using h.symm⟩
  · cases h

theorem grant_eq_some (h : grant p = some p') :
    p.thread = .asking ∧ p' = { p with thread := .running } := by
  unfold grant at h
  split at h
  · rename_i hth
    exact ⟨hth, by simpa using h.symm⟩
  · cases h

theorem unlock_eq_some (h : unlock p = some p') :
    p.thread = .running ∧ p.mode ≠ .none ∧ p' = { p with prot := .none, mode := .none } := by
  unfold unlock at h
  split at h
  · rename_i hcond
    exact ⟨hcond.1, hcond.2, by simpa using h.symm⟩
  · cases h

theorem write_eq_some {page : C} (h : write p page = some p') :
    p.thread = .running ∧ p.mode ≠ .none ∧ p.prot = .readWrite ∧
      p' = { p with content := page } := by
  unfold write at h
  split at h
  · rename_i hcond
    exact ⟨hcond.1, hcond.2.1, Prot.allows_true.mp hcond.2.2, by simpa using h.symm⟩
  · cases h

theorem read_eq_some [DecidableEq C] {page : C} (h : read p page = some p') :
    p.thread = .running ∧ p.mode ≠ .none ∧ p.prot ≠ .none ∧ p.content = page ∧ p' = p := by
  unfold read at h
  split at h
  · rename_i hcond
    obtain ⟨hth, hmode, hprot, hpage⟩ := hcond
    exact ⟨hth, hmode, Prot.allows_false.mp hprot, hpage, by simpa using h.symm⟩
  · cases h

end Accesses

/-! ## Steps -/

/-- A step is an action of one thread or the handling of a message in flight. -/
theorem step_cases [DecidableEq C] {nodeList : Node → List Node} {s s' : Net Node C}
    {e : Event Node C} (h : step nodeList s e = some s') :
    (∃ i a r, e = .act i a ∧ act (nodeList i) i (s.node i) a = some r ∧ s' = s.fire i s.msgs r) ∨
    (∃ m, e = .deliver m ∧ m ∈ s.msgs ∧
      s' = s.fire m.dest (s.msgs.erase m) (handle m.dest (s.node m.dest) m)) := by
  rcases Network.step_cases h with hact | ⟨m, r, rfl, hm, hr, rfl⟩
  · exact Or.inl hact
  · obtain rfl : handle m.dest (s.node m.dest) m = r := Option.some.inj hr
    exact Or.inr ⟨m, rfl, hm, rfl⟩

end DataTransfer
