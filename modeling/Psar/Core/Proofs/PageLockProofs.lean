import Psar.Core.PageLock

/-!
# Proofs: what the functions of the page lock can do

One lemma for each function of `core.c` that lists its outcomes, together with the tests that lead
to them. The rest of the development never unfolds the functions themselves.
-/

namespace PageLock

variable {Node : Type} [DecidableEq Node]

/-! ## Releasing the lock -/

/-- Without a `WRITE` request at the head, `handle_local_UNLOCK` only removes an entry. -/
theorem handleLocalUnlock_keep {i fr : Node} {c : CoreInfo Node}
    (h : ∀ q t, (removeRequest c fr).request ≠ ⟨.write, q⟩ :: t) :
    handleLocalUnlock i c fr = (removeRequest c fr, []) := by
  unfold handleLocalUnlock
  dsimp only
  split
  · rfl
  · rename_i first t heq
    obtain ⟨mode, q⟩ := first
    cases mode with
    | read => rfl
    | write => exact absurd heq (h q t)

/-- With the `WRITE` request of `q` at the head, `handle_local_UNLOCK` hands the token over to `q`,
unless `q` is the node itself. -/
theorem handleLocalUnlock_head {i fr q : Node} {c : CoreInfo Node} {t : List (Request Node)}
    (h : (removeRequest c fr).request = ⟨.write, q⟩ :: t) :
    handleLocalUnlock i c fr =
      if q = i then ({ c with request := t }, [])
      else ({ c with request := t, haveToken := q }, [.getLock q i i .write]) := by
  have hc : removeRequest c fr = { c with request := ⟨.write, q⟩ :: t } := by
    rw [← h]; rfl
  unfold handleLocalUnlock
  rw [hc]
  by_cases hq : q = i <;> simp [hq, removeRequest]

/-- `handle_local_UNLOCK` removes an entry of `fr`; then it removes the head of the list if that is
a `WRITE` request, and hands the token over to it if it is another node's. -/
theorem handleLocalUnlock_cases (i fr : Node) (c : CoreInfo Node) :
    ((∀ q t, (removeRequest c fr).request ≠ ⟨.write, q⟩ :: t) ∧
      handleLocalUnlock i c fr = (removeRequest c fr, [])) ∨
    (∃ t, (removeRequest c fr).request = ⟨.write, i⟩ :: t ∧
      handleLocalUnlock i c fr = ({ c with request := t }, [])) ∨
    (∃ q t, q ≠ i ∧ (removeRequest c fr).request = ⟨.write, q⟩ :: t ∧
      handleLocalUnlock i c fr =
        ({ c with request := t, haveToken := q }, [.getLock q i i .write])) := by
  by_cases hhead : ∃ q t, (removeRequest c fr).request = ⟨.write, q⟩ :: t
  · obtain ⟨q, t, hq⟩ := hhead
    have heq := handleLocalUnlock_head (i := i) hq
    by_cases hqi : q = i
    · rw [if_pos hqi] at heq
      exact Or.inr (Or.inl ⟨t, hqi ▸ hq, heq⟩)
    · rw [if_neg hqi] at heq
      exact Or.inr (Or.inr ⟨q, t, hqi, hq, heq⟩)
  · push Not at hhead
    exact Or.inl ⟨hhead, handleLocalUnlock_keep hhead⟩

/-- `unlock_internal` of a writer whose list is not empty. -/
theorem unlockInternal_writing {i : Node} {c : CoreInfo Node} (hmode : c.mode = .writing)
    {fm : LockType} {fw : Node} {rest : List (Request Node)} (hr : c.request = ⟨fm, fw⟩ :: rest) :
    unlockInternal i c = some (match fm with
      | .read => ({ c with mode := .none },
          (c.request.takeWhile fun r => r.mode = .read).map fun r => .getLock r.who i i .read)
      | .write => ({ c with mode := .none, haveToken := fw, request := rest },
          [.getLock fw i i .write])) := by
  cases fm <;> simp [unlockInternal, hmode, hr, removeRequest]

/-- `unlock` is called by a thread that holds the lock, and it makes the thread idle. -/
theorem unlock_eq_some {i : Node} {p : Peer Node} {r : Peer Node × List (Msg Node)}
    (h : unlock i p = some r) :
    ∃ k x, p.thread = .returned k ∧ unlockInternal i p.core = some x ∧
      r = ({ p with core := x.1, thread := .idle }, x.2) := by
  unfold unlock at h
  split at h
  · rename_i k hth
    obtain ⟨x, hx, rfl⟩ := Option.map_eq_some_iff.mp h
    exact ⟨k, x, hth, hx, rfl⟩
  · cases h

/-! ## Asking for the lock -/

/-- `ask_lock` returns at once on a locked page; it queues a request at the node that has the token,
takes the free lock there, or sends the request to the supposed owner of the token. -/
theorem askLock_cases {i : Node} {p : Peer Node} {m : LockType} {r : Peer Node × List (Msg Node)}
    (h : askLock i p m = some r) :
    (p.thread = .idle ∨ ∃ m', p.thread = .returned m') ∧
    ((p.core.mode ≠ .none ∧ r = ({ p with thread := .returned (p.thread.held m) }, [])) ∨
    (p.core.mode = .none ∧ p.core.haveToken = i ∧ (p.core.request ≠ [] ∨ m = .read) ∧
      r = ({ p with
        core := addRequest { p.core with mode := m.toStatus } i m
        thread := if m = .write then .semWait else .returned m }, [])) ∨
    (p.core.mode = .none ∧ p.core.haveToken = i ∧ p.core.request = [] ∧ m = .write ∧
      r = ({ p with core := { p.core with mode := .writing }, thread := .returned .write }, [])) ∨
    (p.core.mode = .none ∧ p.core.haveToken ≠ i ∧ p.core.predicate = true ∧
      r = ({ p with
        core := { p.core with mode := m.toStatus, predicate := false }
        thread := .returned m }, [.askLock p.core.haveToken i i m])) ∨
    (p.core.mode = .none ∧ p.core.haveToken ≠ i ∧ p.core.predicate = false ∧
      r = ({ p with core := { p.core with mode := m.toStatus }, thread := .condWait m },
        [.askLock p.core.haveToken i i m]))) := by
  have hth : p.thread = .idle ∨ ∃ m', p.thread = .returned m' := by
    unfold askLock at h
    split at h
    · rename_i hth; exact Or.inl hth
    · rename_i m' hth; exact Or.inr ⟨m', hth⟩
    · cases h
  refine ⟨hth, ?_⟩
  by_cases hmode : p.core.mode = .none
  · have hr : r = ({ p with
        core := (askLockBody i p.core m).1
        thread := (askLockBody i p.core m).2.1 }, (askLockBody i p.core m).2.2) := by
      rcases hth with hth | ⟨m', hth⟩ <;>
        simpa [askLock, hth, hmode] using h.symm
    subst hr
    by_cases ht : p.core.haveToken = i
    · by_cases hl : p.core.request ≠ [] ∨ m = .read
      · exact Or.inr (Or.inl ⟨hmode, ht, hl, by simp [askLockBody, ht, hl]⟩)
      · have hl' : p.core.request = [] ∧ m = .write := by
          cases m <;> simp_all
        obtain ⟨hr, rfl⟩ := hl'
        exact Or.inr (Or.inr (Or.inl ⟨hmode, ht, hr, rfl, by
          simp [askLockBody, ht, hr, LockType.toStatus]⟩))
    · cases hpred : p.core.predicate
      · exact Or.inr (Or.inr (Or.inr (Or.inr ⟨hmode, ht, rfl, by
          simp [askLockBody, ht, hpred]⟩)))
      · exact Or.inr (Or.inr (Or.inr (Or.inl ⟨hmode, ht, rfl, by
          simp [askLockBody, ht, hpred]⟩)))
  · refine Or.inl ⟨hmode, ?_⟩
    rcases hth with hth | ⟨m', hth⟩ <;> simpa [askLock, hth, hmode] using h.symm

/-- The handler of `ASK_LOCK` queues the request, passes it on, or answers it with a `GET_LOCK`. -/
theorem handleAskLock_cases (i : Node) (c : CoreInfo Node) (j : Node) (k : LockType) :
    (∃ w, findLastWriter c = some w ∧ w.who = i ∧
      handleAskLock i c j k = (addRequest c j k, [])) ∨
    (∃ w, findLastWriter c = some w ∧ w.who ≠ i ∧
      handleAskLock i c j k = (c, [.askLock w.who i j k])) ∨
    (findLastWriter c = none ∧ c.haveToken = i ∧ c.mode = .none ∧ k = .write ∧ c.request = [] ∧
      handleAskLock i c j k = ({ c with haveToken := j }, [.getLock j i i .write])) ∨
    (findLastWriter c = none ∧ c.haveToken = i ∧ (c.mode = .none ∨ c.mode = .reading) ∧ k = .read ∧
      handleAskLock i c j k = (addRequest c j .read, [.getLock j i i .read])) ∨
    (findLastWriter c = none ∧ c.haveToken = i ∧ (c.mode = .none → c.request ≠ []) ∧
      ¬ (c.mode = .reading ∧ k = .read) ∧ handleAskLock i c j k = (addRequest c j k, [])) ∨
    (findLastWriter c = none ∧ c.haveToken ≠ i ∧
      handleAskLock i c j k =
        (if k = .write then { c with haveToken := j } else c, [.askLock c.haveToken i j k])) := by
  cases hl : findLastWriter c with
  | some w =>
    by_cases hw : w.who = i
    · exact Or.inl ⟨w, rfl, hw, by simp [handleAskLock, hl, hw]⟩
    · exact Or.inr (Or.inl ⟨w, rfl, hw, by simp [handleAskLock, hl, hw]⟩)
  | none =>
    refine Or.inr (Or.inr ?_)
    by_cases ht : c.haveToken = i
    · by_cases hm : c.mode = .none
      · cases k with
        | read =>
          exact Or.inr (Or.inl ⟨rfl, ht, Or.inl hm, rfl, by simp [handleAskLock, hl, ht, hm]⟩)
        | write =>
          by_cases hr : c.request = []
          · exact Or.inl ⟨rfl, ht, hm, rfl, hr, by simp [handleAskLock, hl, ht, hm, hr]⟩
          · exact Or.inr (Or.inr (Or.inl ⟨rfl, ht, fun _ => hr, by simp,
              by simp [handleAskLock, hl, ht, hm, hr]⟩))
      · by_cases hg : c.mode = .reading ∧ k = .read
        · obtain ⟨hmr, rfl⟩ := hg
          exact Or.inr (Or.inl ⟨rfl, ht, Or.inr hmr, rfl, by simp [handleAskLock, hl, ht, hmr]⟩)
        · exact Or.inr (Or.inr (Or.inl ⟨rfl, ht, fun h => absurd h hm, hg,
            by simp [handleAskLock, hl, ht, hm, hg]⟩))
    · exact Or.inr (Or.inr (Or.inr ⟨rfl, ht, by simp [handleAskLock, hl, ht]⟩))

/-! ## Handlers and the page mutex -/

omit [DecidableEq Node] in
/-- A handler that needs the page mutex replaces the entry of the page. -/
theorem underMutex_eq_some {p : Peer Node} {c : CoreInfo Node × List (Msg Node)}
    {r : Peer Node × List (Msg Node)} (h : underMutex p c = some r) :
    p.locked = false ∧ r = ({ p with core := c.1 }, c.2) := by
  unfold underMutex at h
  split at h
  · cases h
  · rename_i hl
    exact ⟨by simpa using hl, by simpa using h.symm⟩

/-- The end of the waiting loop of `send_wait_message_nolock`. -/
theorem resume_eq_some {nodeList : List Node} {i : Node} {p : Peer Node}
    {r : Peer Node × List (Msg Node)} (h : act nodeList i p .resume = some r) :
    ∃ k, p.thread = .condWait k ∧ p.core.predicate = true ∧
      r = ({ p with core := { p.core with predicate := false }, thread := .returned k }, []) := by
  simp only [act] at h
  split at h
  · rename_i k hth
    split at h
    · rename_i hpred
      exact ⟨k, hth, hpred, by simpa using h.symm⟩
    · cases h
  · cases h

/-- The end of the `sem_wait`. -/
theorem semWake_eq_some {nodeList : List Node} {i : Node} {p : Peer Node}
    {r : Peer Node × List (Msg Node)} (h : act nodeList i p .semWake = some r) :
    p.thread = .semWait ∧ 0 < p.core.writeAutoLock ∧
      r = ({ p with
        core := { p.core with writeAutoLock := p.core.writeAutoLock - 1 }
        thread := .returned .write }, []) := by
  simp only [act] at h
  split at h
  · rename_i hth
    split at h
    · rename_i hpos
      exact ⟨hth, hpos, by simpa using h.symm⟩
    · cases h
  · cases h

/-- A handler does not move the application thread. -/
theorem handle_thread {i : Node} {p : Peer Node} {m : Msg Node} {r : Peer Node × List (Msg Node)}
    (h : handle i p m = some r) : r.1.thread = p.thread := by
  cases m with
  | delegateAck d sender =>
    cases h
    rfl
  | _ =>
    obtain ⟨-, rfl⟩ := underMutex_eq_some h
    rfl

/-! ## What the functions leave as it is -/

theorem toStatus_ne_none (m : LockType) : m.toStatus ≠ .none := by
  cases m <;> simp [LockType.toStatus]

theorem handleLocalUnlock_frame (i fr : Node) (c : CoreInfo Node) :
    (handleLocalUnlock i c fr).1.mode = c.mode ∧
      (handleLocalUnlock i c fr).1.writeAutoLock = c.writeAutoLock ∧
      (handleLocalUnlock i c fr).1.predicate = c.predicate := by
  rcases handleLocalUnlock_cases i fr c with ⟨-, h⟩ | ⟨t, -, h⟩ | ⟨q, t, -, -, h⟩ <;> rw [h] <;>
    exact ⟨rfl, rfl, rfl⟩

/-- `unlock_internal` sets the lock status to `NONE`, and leaves the semaphore and the predicate. -/
theorem unlockInternal_frame {i : Node} {c : CoreInfo Node} {r : CoreInfo Node × List (Msg Node)}
    (h : unlockInternal i c = some r) :
    r.1.mode = .none ∧ r.1.writeAutoLock = c.writeAutoLock ∧ r.1.predicate = c.predicate := by
  cases hmode : c.mode with
  | none =>
    rw [unlockInternal, hmode] at h
    cases h
  | reading =>
    rw [unlockInternal, hmode] at h
    dsimp only at h
    split_ifs at h
    · cases h
      exact ⟨rfl, (handleLocalUnlock_frame i i c).2⟩
    · cases h
      exact ⟨rfl, rfl, rfl⟩
  | writing =>
    cases hrequest : c.request with
    | nil =>
      rw [unlockInternal, hmode, hrequest] at h
      cases h
      exact ⟨rfl, rfl, rfl⟩
    | cons first rest =>
      obtain ⟨mode, who⟩ := first
      rw [unlockInternal_writing hmode hrequest] at h
      cases mode <;> cases h <;> exact ⟨rfl, rfl, rfl⟩

theorem handleAskLock_frame (i : Node) (c : CoreInfo Node) (j : Node) (k : LockType) :
    (handleAskLock i c j k).1.mode = c.mode ∧
      (handleAskLock i c j k).1.writeAutoLock = c.writeAutoLock ∧
      (handleAskLock i c j k).1.predicate = c.predicate := by
  rcases handleAskLock_cases i c j k with ⟨_, -, -, h⟩ | ⟨_, -, -, h⟩ | ⟨-, -, -, -, -, h⟩ |
    ⟨-, -, -, -, h⟩ | ⟨-, -, -, -, h⟩ | ⟨-, -, h⟩ <;> rw [h]
  case inr.inr.inr.inr.inr => cases k <;> exact ⟨rfl, rfl, rfl⟩
  all_goals exact ⟨rfl, rfl, rfl⟩

omit [DecidableEq Node] in
/-- `handle_GET_LOCK` sets the predicate. -/
theorem handleGetLock_frame (i : Node) (c : CoreInfo Node) (sender : Node) (k : LockType) :
    (handleGetLock i c sender k).mode = c.mode ∧
      (handleGetLock i c sender k).writeAutoLock = c.writeAutoLock := by
  unfold handleGetLock
  cases k <;> by_cases hc : c.mode = .none <;> simp [hc]

theorem handleUnlock_frame (i : Node) (c : CoreInfo Node) (sender initiator : Node)
    (k : LockType) :
    (handleUnlock i c sender initiator k).1.mode = c.mode ∧
      (handleUnlock i c sender initiator k).1.writeAutoLock = c.writeAutoLock ∧
      (handleUnlock i c sender initiator k).1.predicate = c.predicate := by
  unfold handleUnlock
  split_ifs
  · exact ⟨rfl, rfl, rfl⟩
  · exact handleLocalUnlock_frame i sender c

omit [DecidableEq Node] in
theorem handleSendState_frame (c : CoreInfo Node) (requests : Option (List (Request Node))) :
    (handleSendState c requests).mode = c.mode ∧
      (handleSendState c requests).writeAutoLock = c.writeAutoLock ∧
      (handleSendState c requests).predicate = c.predicate := by
  cases requests with
  | none => exact ⟨rfl, rfl, rfl⟩
  | some rs =>
    show (unserializeRequests c rs).mode = c.mode ∧ _
    induction rs generalizing c with
    | nil => exact ⟨rfl, rfl, rfl⟩
    | cons r rs ih => exact ih (addRequest c r.who r.mode)

/-- A handler does not change the lock status: only `ask_lock` and `unlock` do. -/
theorem handle_mode {i : Node} {p : Peer Node} {m : Msg Node} {r : Peer Node × List (Msg Node)}
    (h : handle i p m = some r) : r.1.core.mode = p.core.mode := by
  cases m with
  | askLock d sender j k =>
    obtain ⟨-, rfl⟩ := underMutex_eq_some h
    exact (handleAskLock_frame i p.core j k).1
  | getLock d sender j k =>
    obtain ⟨-, rfl⟩ := underMutex_eq_some h
    exact (handleGetLock_frame i p.core sender k).1
  | unlock d sender j k =>
    obtain ⟨-, rfl⟩ := underMutex_eq_some h
    exact (handleUnlock_frame i p.core sender j k).1
  | sendState d sender requests =>
    obtain ⟨-, rfl⟩ := underMutex_eq_some h
    exact (handleSendState_frame p.core requests).1
  | delegate d sender delegate =>
    obtain ⟨-, rfl⟩ := underMutex_eq_some h
    rfl
  | delegateAck d sender =>
    cases h
    rfl

/-! ## Leaving -/

/-- `leave_core` of a node that has the token and does not use it. -/
theorem leaveCore_idle {i : Node} {nodeList : List Node} {p : Peer Node} (hth : p.thread = .idle)
    (hmode : p.core.mode = .none) (ht : p.core.haveToken = i) (d : Node) :
    leaveCore i nodeList p d = some ({ p with
      thread := .leaving d true
      delegateAckCounter := p.delegateAckCounter + nodeList.length },
      .sendState d i (some p.core.request) :: nodeList.map fun n => .delegate n i d) := by
  simp [leaveCore, hth, hmode, ht]

/-- The end of `leave_core`. -/
theorem leaveFinish_eq_some {i : Node} {p : Peer Node} {r : Peer Node × List (Msg Node)}
    (h : leaveFinish i p = some r) :
    ∃ d b, p.thread = .leaving d b ∧ p.delegateAckCounter = 0 ∧ r.1.thread = .left ∧
      r.1.delegateAckCounter = 0 ∧ r.2 = [] ∧ r.1.core = if p.core.haveToken = i then
        { p.core with haveToken := d, request := [], mode := .none } else p.core := by
  unfold leaveFinish at h
  split at h
  · rename_i d b hth
    split at h
    · rename_i hctr
      cases h
      exact ⟨d, b, hth, hctr, rfl, hctr, rfl, rfl⟩
    · cases h
  · cases h

end PageLock
