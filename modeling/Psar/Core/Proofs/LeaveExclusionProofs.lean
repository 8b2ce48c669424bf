import Psar.Core.LeaveExclusion
import Psar.Core.Proofs.ExclusionProofs
import Psar.Core.Proofs.LeaveProofs

/-!
# Proofs: reader/writer exclusion while a node leaves

As in `Psar.Core.Proofs.ExclusionProofs`, each function moves one node. A move either keeps the
invariant of the leave, or it is the first grant to a writer: then no reader is left.
-/

namespace PageLock

variable {Node : Type} [DecidableEq Node]

/-- The node `i` moves from `p` to `p'`, consumes the messages `ms` and sends `out`, while `l`
leaves; afterwards `b` tells whether `SEND_STATE` has been handled. -/
structure WindowMove (l d : Node) (b : Prop) (i : Node) (p : Peer Node) (ms : List (Msg Node))
    (p' : Peer Node) (out : List (Msg Node)) : Prop where
  local_ : WindowLocal l d b i p'
  msgs : ∀ m ∈ out, WindowMsg l d b m
  noState : ∀ m ∈ out, m.isState = false
  pending : ∀ j k, idleAt j k i p' + (out.map (pendingMsg j k)).sum ≤
    idleAt j k i p + (ms.map (pendingMsg j k)).sum
  readers : readerAt i p' + (out.map readerMsg).sum + keptAt d i p + (ms.map keptMsg).sum ≤
    readerAt i p + (ms.map readerMsg).sum + keptAt d i p' + (out.map keptMsg).sum

/-- The delegate grants the lock to a writer when no other reader is recorded. -/
structure WindowEnd (d : Node) (b : Prop) (i : Node) (p : Peer Node) (ms : List (Msg Node))
    (p' : Peer Node) (out : List (Msg Node)) : Prop where
  node : i = d
  handled : b
  readers : readerAt i p' + (out.map readerMsg).sum + reads p.core.request ≤
    readerAt i p + (ms.map readerMsg).sum

section Local

variable {l d i : Node} {b : Prop} {p : Peer Node}

theorem WindowLocal.mono {b' : Prop} (hp : WindowLocal l d b i p) (hb : b → b') :
    WindowLocal l d b' i p := by
  refine ⟨hp.mode, hp.leaver, hp.predicate, hp.noWriter, ?_, hp.requests, hp.semaphore⟩
  intro ht
  exact (hp.token ht).imp id fun h => h.imp id fun h => ⟨h.1, hb h.2⟩

omit [DecidableEq Node] in
theorem WindowMsg.mono {b' : Prop} {m : Msg Node} (hm : WindowMsg l d b m) (hb : b → b') :
    WindowMsg l d b' m := by
  cases m with
  | getLock j sender j' k => exact ⟨hm.1, fun h => ⟨(hm.2 h).1, hb (hm.2 h).2⟩⟩
  | _ => exact hm

/-- A node that takes part in the protocol and has the token is the delegate. -/
theorem WindowLocal.serves (hp : WindowLocal l d b i p) (hl : p.locked = false)
    (hw : p.waits .write = false) (ht : p.core.haveToken = i) : i = d ∧ b := by
  rcases hp.token ht with ⟨d', locked, hth⟩ | h | h
  · have hmode := hp.mode
    rw [hth] at hmode
    simp [Peer.locked, hth, hmode.2.2.2] at hl
  · exact absurd (h.symm.trans hw) (by simp)
  · exact h

/-- A node in mode `WRITING` that has the token waits for it. -/
theorem WindowLocal.not_waits (hp : WindowLocal l d b i p) (hm : p.core.mode ≠ .writing) :
    p.waits .write = false := by
  by_contra hw
  simp only [Peer.waits, Bool.not_eq_false, Bool.and_eq_true, decide_eq_true_eq] at hw
  have hmode := hp.mode
  rw [hw.1] at hmode
  exact hm hmode

/-! ## Moves -/

/-- A move that keeps the thread and changes the entry of the page without making the node an owner
of the token. -/
theorem windowMove_core (hp : WindowLocal l d b i p) {c : CoreInfo Node} {ms out : List (Msg Node)}
    (hmode : c.mode = p.core.mode) (hpred : c.predicate = p.core.predicate)
    (hsem : c.writeAutoLock = p.core.writeAutoLock)
    (htoken : c.haveToken = p.core.haveToken ∨
      (∀ d' locked, p.thread ≠ .leaving d' locked) ∧
        (c.haveToken = i → p.waits .write = true ∨ (i = d ∧ b)))
    (hreq : i ≠ l → ∀ r ∈ c.request, r.who ≠ l) (hmsgs : ∀ m ∈ out, WindowMsg l d b m)
    (hstate : ∀ m ∈ out, m.isState = false)
    (hpending : ∀ j k, (out.map (pendingMsg j k)).sum ≤ (ms.map (pendingMsg j k)).sum)
    (hreaders : (out.map readerMsg).sum + (if i = d then reads p.core.request else 0) +
        (ms.map keptMsg).sum ≤
      (ms.map readerMsg).sum + (if i = d then reads c.request else 0) + (out.map keptMsg).sum) :
    WindowMove l d b i p ms { p with core := c } out where
  local_ := by
    have hw : ∀ k, Peer.waits { p with core := c } k = p.waits k := fun k => by
      simp [Peer.waits, hpred]
    refine ⟨?_, hp.leaver, ?_, ?_, ?_, hreq, hsem.trans hp.semaphore⟩
    · have hm := hp.mode
      cases hth : p.thread with
      | leaving d' locked =>
        rw [hth] at hm
        rcases htoken with h | ⟨h, -⟩
        · simpa [hmode, h] using hm
        · exact absurd hth (h d' locked)
      | _ => rw [hth] at hm; simpa [hmode] using hm
    · intro h
      exact hp.predicate (hpred ▸ h)
    · have h := hp.noWriter
      simpa [Peer.granted, hpred] using h
    · intro ht
      rw [hw]
      rcases htoken with h | ⟨-, h⟩
      · exact hp.token (h.symm.trans ht)
      · exact Or.inr (h ht)
  msgs := hmsgs
  noState := hstate
  pending := by
    intro j k
    have h : idleAt j k i { p with core := c } = idleAt j k i p := by
      simp [idleAt, Peer.waits, hpred]
    have := hpending j k
    omega
  readers := by
    have h : readerAt i { p with core := c } = readerAt i p := by
      simp [readerAt, Peer.granted, hpred]
    simp only [keptAt, h]
    omega

/-- `ask_lock`. -/
theorem window_askLock (hp : WindowLocal l d b i p) {k : LockType}
    (hk : k = .write → p.core.mode ≠ .reading) {r : Peer Node × List (Msg Node)}
    (h : askLock i p k = some r) :
    WindowMove l d b i p [] r.1 r.2 ∨ WindowEnd d b i p [] r.1 r.2 := by
  obtain ⟨hth, hcases⟩ := askLock_cases h
  have hil : i ≠ l := by
    intro hi
    rcases hp.leaver.mpr hi with h' | ⟨d', b', h'⟩ <;> rcases hth with hth | ⟨m, hth⟩ <;>
      exact absurd (hth.symm.trans h') (by simp)
  have hmode := hp.mode
  by_cases hnone : p.core.mode = .none
  · have hidle : p.thread = .idle := by
      rcases hth with hth | ⟨m, hth⟩
      · exact hth
      · rw [hth] at hmode
        cases m <;> simp [hnone, LockType.toStatus] at hmode
    have hpred : p.core.predicate = false := by
      by_contra hpred
      obtain ⟨m, hm⟩ := hp.predicate (by simpa using hpred)
      exact absurd (hidle.symm.trans hm) (by simp)
    have hserves : p.core.haveToken = i → i = d ∧ b :=
      hp.serves (by simp [Peer.locked, hidle]) (by simp [Peer.waits, hidle])
    rcases hcases with ⟨hne, -⟩ | ⟨-, ht, -, rfl⟩ | ⟨-, ht, hnil, -, rfl⟩ | ⟨-, -, hpred', -⟩ |
      ⟨-, ht, -, rfl⟩
    · exact absurd hnone hne
    · -- the request is recorded in the list of the delegate
      obtain ⟨hid, hb⟩ := hserves ht
      have hreq : i ≠ l → ∀ r ∈ (⟨k, i⟩ :: p.core.request : List (Request Node)), r.who ≠ l := by
        intro _ r hr
        rcases List.mem_cons.mp hr with rfl | hr
        · exact hil
        · exact hp.requests hil r hr
      left
      cases k with
      | read =>
        refine ⟨⟨rfl, ?_, by simp [addRequest, hpred], by simp [Peer.granted],
          fun _ => Or.inr (Or.inr ⟨hid, hb⟩),
          hreq, hp.semaphore⟩, by simp, by simp, ?_, ?_⟩
        · simpa using hil
        · intro j k'
          simp [idleAt, Peer.waits, hidle]
        · simp [readerAt, Peer.granted, keptAt, hid, addRequest]
          omega
      | write =>
        refine ⟨⟨rfl, ?_, by simp [addRequest, hpred], by simp [Peer.granted],
          fun _ => Or.inr (Or.inr ⟨hid, hb⟩),
          hreq, hp.semaphore⟩, by simp, by simp, ?_, ?_⟩
        · simpa using hil
        · intro j k'
          simp [idleAt, Peer.waits, hidle]
        · simp [readerAt, Peer.granted, keptAt, hid, addRequest]
    · -- nobody is recorded any more
      obtain ⟨hid, hb⟩ := hserves ht
      exact Or.inr ⟨hid, hb, by simp [hnil, readerAt, Peer.granted]⟩
    · exact absurd (hpred'.symm.trans hpred) (by simp)
    · left
      refine ⟨⟨rfl, by simpa using hil, by simp [hpred], by simp [Peer.granted, hpred],
        fun ht' => absurd ht' ht, hp.requests, hp.semaphore⟩, by simpa [WindowMsg] using hil,
        by simp [Msg.isState], ?_, ?_⟩
      · intro j k'
        by_cases hj : i = j <;> cases k <;> cases k' <;>
          simp [idleAt, Peer.waits, hidle, pendingMsg, hpred, hj]
      · simp [readerAt, Peer.granted, hpred, keptAt, readerMsg, keptMsg]
  · -- the page is already locked by the node itself
    rcases hcases with ⟨-, rfl⟩ | ⟨h0, -⟩ | ⟨h0, -⟩ | ⟨h0, -⟩ | ⟨h0, -⟩
    · left
      have hret : p.thread = .returned .read := by
        rcases hth with hth | ⟨m, hth⟩
        · rw [hth] at hmode
          exact absurd hmode hnone
        · cases m with
          | read => exact hth
          | write => exact absurd hp.noWriter (by simp [Peer.granted, hth])
      have hkr : k = .read := by
        cases k with
        | read => rfl
        | write =>
          rw [hret] at hmode
          exact absurd hmode (hk rfl)
      have heq : ({ p with thread := .returned (p.thread.held k) } : Peer Node) = p := by
        rw [hret, hkr, Thread.held, LockType.max, ← hret]
      rw [heq]
      exact ⟨hp, by simp, by simp, fun j k' => le_rfl, le_rfl⟩
    all_goals exact absurd h0 hnone

/-- A reader calls `unlock`. -/
theorem window_unlock (hp : WindowLocal l d b i p)
    (hsafe : p.core.mode = .reading → p.core.haveToken = i → safeRelease i p i = true)
    {r : Peer Node × List (Msg Node)} (h : unlock i p = some r) :
    WindowMove l d b i p [] r.1 r.2 ∨ WindowEnd d b i p [] r.1 r.2 := by
  obtain ⟨k, x, hth, hx, rfl⟩ := unlock_eq_some h
  obtain rfl : k = .read := by
    cases k with
    | read => rfl
    | write => exact absurd hp.noWriter (by simp [Peer.granted, hth])
  have hmode : p.core.mode = .reading := by
    have hm := hp.mode
    rwa [hth] at hm
  have hpred : p.core.predicate = false := by
    by_contra hpred
    obtain ⟨m, hm⟩ := hp.predicate (by simpa using hpred)
    exact absurd (hth.symm.trans hm) (by simp)
  have hil : i ≠ l := by
    intro hi
    rcases hp.leaver.mpr hi with h' | ⟨d', b', h'⟩ <;> exact absurd (hth.symm.trans h') (by simp)
  have hread : readerAt i p = 1 := by simp [readerAt, Peer.granted, hth]
  -- the thread is idle afterwards
  have hidle : ∀ c : CoreInfo Node, c.mode = .none → c.predicate = false → c.writeAutoLock = 0 →
      (c.haveToken = i → i = d ∧ b) → c.request.Sublist p.core.request →
      WindowLocal l d b i { p with core := c, thread := .idle } := by
    intro c h1 h2 h3 h4 h5
    refine ⟨h1, by simpa using hil, by simp [h2], by simp [Peer.granted],
      fun ht => Or.inr (Or.inr (h4 ht)), fun hl r hr => hp.requests hl r (h5.subset hr), h3⟩
  by_cases ht : p.core.haveToken = i
  · obtain ⟨hid, hb⟩ := hp.serves (by simp [Peer.locked, hth]) (by simp [Peer.waits, hth]) ht
    simp only [unlockInternal, hmode, ht, if_true, Option.some.injEq] at hx
    subst hx
    rcases handleLocalUnlock_reads i i p.core with ⟨q, heq, hsub, hle⟩ | ⟨q, t, hq, hl, heq, hsub, hle⟩
    · rw [heq]
      left
      refine ⟨hidle _ rfl hpred hp.semaphore (fun _ => ⟨hid, hb⟩) hsub, by simp, by simp,
        ?_, ?_⟩
      · intro j k'
        simp [idleAt, Peer.waits, hth]
      · rw [hread]
        simp [readerAt, Peer.granted, keptAt, hid]
        omega
    · rw [heq]
      have hr := (reads_of_safeRelease (hsafe hmode ht) hq hl).2
      refine Or.inr ⟨hid, hb, ?_⟩
      simp only [hread]
      simp [readerAt, Peer.granted, readerMsg]
      omega
  · simp only [unlockInternal, hmode, ht, if_false, Option.some.injEq] at hx
    subst hx
    left
    refine ⟨hidle _ rfl hpred hp.semaphore (fun h' => absurd h' ht) (List.Sublist.refl _),
      by simp [WindowMsg], by simp [Msg.isState], ?_, ?_⟩
    · intro j k'
      simp [idleAt, Peer.waits, hth, pendingMsg]
    · simp only [hread, keptAt]
      simp [readerAt, Peer.granted, readerMsg, keptMsg]

/-- A node that is not locked is not waiting for acknowledgements. -/
theorem WindowLocal.not_leaving (hp : WindowLocal l d b i p) (hl : p.locked = false) (d' : Node)
    (locked : Bool) : p.thread ≠ .leaving d' locked := by
  intro hth
  have hmode := hp.mode
  rw [hth] at hmode
  simp [Peer.locked, hth, hmode.2.2.2] at hl

/-- The handler of `ASK_LOCK`. -/
theorem window_handleAskLock (hp : WindowLocal l d b i p) (hl : p.locked = false)
    {dst sender j : Node} {k : LockType} (hj : j ≠ l) (hw : i = j → p.waits k = true) :
    WindowMove l d b i p [.askLock dst sender j k]
      { p with core := (handleAskLock i p.core j k).1 } (handleAskLock i p.core j k).2 ∨
    WindowEnd d b i p [.askLock dst sender j k]
      { p with core := (handleAskLock i p.core j k).1 } (handleAskLock i p.core j k).2 := by
  have hadd : ∀ k', i ≠ l → ∀ r ∈ (addRequest p.core j k').request, r.who ≠ l := by
    intro k' hil r hr
    rcases List.mem_cons.mp hr with rfl | hr
    · exact hj
    · exact hp.requests hil r hr
  have hqueue : WindowMove l d b i p [.askLock dst sender j k]
      { p with core := addRequest p.core j k } [] := by
    refine windowMove_core hp rfl rfl rfl (Or.inl rfl) (hadd k) (by simp) (by simp)
      (fun j' k' => by simp) ?_
    simp only [addRequest_request, reads_cons]
    simp [readerMsg, keptMsg]
    split <;> omega
  rcases handleAskLock_cases i p.core j k with ⟨w, -, -, heq⟩ | ⟨w, -, -, heq⟩ |
    ⟨-, ht, hmode, -, hnil, heq⟩ | ⟨-, ht, hmode, rfl, heq⟩ | ⟨-, -, -, -, heq⟩ | ⟨-, ht, heq⟩
  · rw [heq]
    exact Or.inl hqueue
  · rw [heq]
    exact Or.inl (windowMove_core hp rfl rfl rfl (Or.inl rfl) hp.requests (by simpa [WindowMsg])
      (by simp [Msg.isState]) (fun j' k' => by simp [pendingMsg]) (by simp [readerMsg, keptMsg]))
  · rw [heq]
    obtain ⟨hid, hb⟩ := hp.serves hl (hp.not_waits (by simp [hmode])) ht
    refine Or.inr ⟨hid, hb, ?_⟩
    simp [readerAt, Peer.granted, readerMsg, hnil]
  · rw [heq]
    have hnw : p.core.mode ≠ .writing := by rcases hmode with h | h <;> simp [h]
    obtain ⟨hid, hb⟩ := hp.serves hl (hp.not_waits hnw) ht
    refine Or.inl (windowMove_core hp rfl rfl rfl (Or.inl rfl) (hadd .read) ?_ (by simp [Msg.isState])
      (fun j' k' => by simp [pendingMsg]) ?_)
    · simp only [List.mem_singleton, forall_eq, WindowMsg, true_and]
      exact fun h => ⟨h.symm.trans hid, hb⟩
    · simp only [addRequest_request, reads_cons]
      simp [readerMsg, keptMsg, hid]
      omega
  · rw [heq]
    exact Or.inl hqueue
  · rw [heq]
    have hlv := hp.not_leaving hl
    cases k with
    | read =>
      exact Or.inl (windowMove_core hp rfl rfl rfl (Or.inl rfl) hp.requests (by simpa [WindowMsg])
        (by simp [Msg.isState]) (fun j' k' => by simp [pendingMsg]) (by simp [readerMsg, keptMsg]))
    | write =>
      refine Or.inl (windowMove_core hp rfl rfl rfl (Or.inr ⟨hlv, fun h => Or.inl ?_⟩) hp.requests
        (by simpa [WindowMsg]) (by simp [Msg.isState]) (fun j' k' => by simp [pendingMsg])
        (by simp [readerMsg, keptMsg]))
      exact hw h.symm

/-- The handler of `GET_LOCK(READ)` at a node that waits for it. -/
theorem window_handleGetLock (hp : WindowLocal l d b i p) {sender j : Node}
    (hs : sender = i → i = d ∧ b) (hw : p.waits .read = true) :
    WindowMove l d b i p [.getLock i sender j .read]
      { p with core := handleGetLock i p.core sender .read } [] := by
  obtain ⟨hth, hpred⟩ : p.thread = .condWait .read ∧ p.core.predicate = false := by
    simpa [Peer.waits] using hw
  have hmode : p.core.mode = .reading := by
    have hm := hp.mode
    rwa [hth] at hm
  have heq : handleGetLock i p.core sender .read =
      { p.core with haveToken := sender, predicate := true } := by
    simp [handleGetLock, hmode]
  rw [heq]
  refine ⟨⟨?_, hp.leaver, fun _ => ⟨.read, hth⟩, by simp [Peer.granted, hth],
    fun h => Or.inr (Or.inr (hs h)), hp.requests, hp.semaphore⟩, by simp, by simp, ?_, ?_⟩
  · rw [hth]
    exact hmode
  · intro j' k
    by_cases hj : i = j' <;> cases k <;> simp [idleAt, Peer.waits, hth, hpred, pendingMsg, hj]
  · simp [readerAt, Peer.granted, hth, hpred, readerMsg, keptAt, keptMsg]

/-- The handler of `UNLOCK`. -/
theorem window_handleUnlock (hp : WindowLocal l d b i p) (hl : p.locked = false)
    {dst sender j : Node} {k : LockType}
    (hsafe : p.core.haveToken = i → safeRelease i p sender = true) :
    WindowMove l d b i p [.unlock dst sender j k]
      { p with core := (handleUnlock i p.core sender j k).1 } (handleUnlock i p.core sender j k).2 ∨
    WindowEnd d b i p [.unlock dst sender j k]
      { p with core := (handleUnlock i p.core sender j k).1 }
      (handleUnlock i p.core sender j k).2 := by
  by_cases ht : p.core.haveToken = i
  · simp only [handleUnlock, ht, ne_eq, not_true_eq_false, if_false]
    rcases handleLocalUnlock_reads i sender p.core with
      ⟨q, heq, hsub, hle⟩ | ⟨q, t, hq, hlist, heq, hsub, hle⟩
    · rw [heq]
      refine Or.inl (windowMove_core hp rfl rfl rfl (Or.inl rfl)
        (fun hil r hr => hp.requests hil r (hsub.subset hr)) (by simp) (by simp)
        (fun j' k' => by simp) ?_)
      simp [readerMsg, keptMsg]
      split <;> omega
    · rw [heq]
      obtain ⟨hnw, hr⟩ := reads_of_safeRelease (hsafe ht) hq hlist
      obtain ⟨hid, hb⟩ := hp.serves hl hnw ht
      refine Or.inr ⟨hid, hb, ?_⟩
      simp [readerAt, Peer.granted, readerMsg]
      omega
  · simp only [handleUnlock, ht, ne_eq, not_false_eq_true, if_true]
    exact Or.inl (windowMove_core hp rfl rfl rfl (Or.inl rfl) hp.requests (by simp [WindowMsg])
      (by simp [Msg.isState]) (fun j' k' => by simp [pendingMsg]) (by simp [readerMsg, keptMsg]))

/-- The end of the waiting loop. -/
theorem window_resume (hp : WindowLocal l d b i p) {k : LockType} (hth : p.thread = .condWait k)
    (hpred : p.core.predicate = true) :
    WindowMove l d b i p []
      { p with core := { p.core with predicate := false }, thread := .returned k } [] := by
  obtain rfl : k = .read := by
    cases k with
    | read => rfl
    | write => exact absurd hp.noWriter (by simp [Peer.granted, hth, hpred])
  have hmode : p.core.mode = .reading := by
    have hm := hp.mode
    rwa [hth] at hm
  refine ⟨⟨hmode, ?_, by simp, by simp [Peer.granted], ?_, hp.requests, hp.semaphore⟩,
    by simp, by simp, ?_, ?_⟩
  · have h := hp.leaver
    simpa [hth] using h
  · intro ht
    rcases hp.token ht with ⟨d', b', h⟩ | h | h
    · exact absurd (hth.symm.trans h) (by simp)
    · simp [Peer.waits, hth] at h
    · exact Or.inr (Or.inr h)
  · intro j k
    simp [idleAt, Peer.waits, hth, hpred]
  · simp [readerAt, Peer.granted, hth, hpred, keptAt]

/-- The delegate handles `SEND_STATE`. -/
theorem window_handleSendState (hp : WindowLocal l d b d p) {dst sender : Node}
    {rs : List (Request Node)} (hrs : ∀ r ∈ rs, r.who ≠ l) :
    WindowMove l d b d p [.sendState dst sender (some rs)]
      { p with core := handleSendState p.core (some rs) } [] := by
  have heq : handleSendState p.core (some rs) =
      { p.core with request := rs.reverse ++ p.core.request } := unserializeRequests_eq p.core rs
  rw [heq]
  refine windowMove_core hp rfl rfl rfl (Or.inl rfl) (fun hil r hr => ?_) (by simp) (by simp)
    (fun j k => by simp) ?_
  · rcases List.mem_append.mp hr with hr | hr
    · exact hrs r (List.mem_reverse.mp hr)
    · exact hp.requests hil r hr
  · simp [readerMsg, keptMsg, reads, List.countP_append]
    omega

/-- The handler of `DELEGATE`. -/
theorem window_handleDelegate (hp : WindowLocal l d b i p) (hil : i ≠ l) (hb : i = d → b) {n : Node} :
    WindowMove l d b i p [.delegate n l d]
      { p with core := handleDelegate p.core l d } [.delegateAck l i] := by
  have hlv : ∀ d' locked, p.thread ≠ .leaving d' locked := fun d' locked h =>
    hil (hp.leaver.mp (Or.inr ⟨d', locked, h⟩))
  -- no entry names the leaver
  have hreq : (handleDelegate p.core l d).request = p.core.request :=
    List.filter_eq_self.mpr fun r hr => by simpa using hp.requests hil r hr
  refine windowMove_core hp rfl rfl rfl (Or.inr ⟨hlv, ?_⟩) (fun h => hreq ▸ hp.requests h)
    (by simp [WindowMsg]) (by simp [Msg.isState]) (fun j k => by simp [pendingMsg]) ?_
  · intro ht
    by_cases h : p.core.haveToken = l
    · have hid : d = i := by simpa [handleDelegate, h] using ht
      exact Or.inr ⟨hid.symm, hb hid.symm⟩
    · have ht' : p.core.haveToken = i := by simpa [handleDelegate, h] using ht
      rcases hp.token ht' with ⟨d', b', h'⟩ | h' | h'
      · exact absurd h' (hlv d' b')
      · exact Or.inl h'
      · exact Or.inr h'
  · rw [hreq]
    simp [readerMsg, keptMsg]

/-- The leaver has all acknowledgements. -/
theorem window_leaveFinish (hd : d ≠ l) (hp : WindowLocal l d b i p)
    {r : Peer Node × List (Msg Node)} (h : leaveFinish i p = some r) :
    WindowMove l d b i p [] r.1 r.2 := by
  obtain ⟨d', locked, hth, -, hleft, -, hout, hcore⟩ := leaveFinish_eq_some h
  have hm := hp.mode
  rw [hth] at hm
  obtain ⟨-, ht, rfl, -⟩ := hm
  obtain rfl : i = l := hp.leaver.mp (Or.inr ⟨d', locked, hth⟩)
  have hpred : p.core.predicate = false := by
    by_contra hpred
    obtain ⟨m, hm⟩ := hp.predicate (by simpa using hpred)
    exact absurd (hth.symm.trans hm) (by simp)
  rw [if_pos ht] at hcore
  rw [hout]
  refine ⟨⟨?_, by simp [hleft], by simp [hcore, hpred], by simp [Peer.granted, hleft], ?_, ?_, ?_⟩,
    by simp, by simp, ?_, ?_⟩
  · rw [hleft, hcore]
  · rw [hcore]
    exact fun h' => absurd h' hd
  · exact fun h' => absurd rfl h'
  · rw [hcore]
    exact hp.semaphore
  · intro j k
    simp [idleAt, Peer.waits, hth, hleft]
  · simp [readerAt, Peer.granted, hth, hleft, keptAt, hd.symm]

end Local

/-! ## Steps -/

section Run

variable [Fintype Node] {nodeList : Node → List Node} {l d : Node} {s t t' : Net Node}

theorem windowInv_fire (h : WindowInv l d t) {i : Node} {ms rest : List (Msg Node)}
    (hp : t.msgs.Perm (ms ++ rest)) {r : Peer Node × List (Msg Node)}
    (hm : WindowMove l d (stateHandled t) i (t.node i) ms r.1 r.2) :
    WindowInv l d (t.fire i rest r) := by
  have hb : stateHandled t → stateHandled (t.fire i rest r) := fun hb =>
    Network.forall_msgs_fire hb hp hm.noState
  refine ⟨?_, ?_, ?_, ?_⟩
  · intro j
    exact (Network.forall_node_fire h.local_ hm.local_ j).mono hb
  · intro m hmem
    exact (Network.forall_msgs_fire h.msgs hp hm.msgs m hmem).mono hb
  · intro j k
    have h1 := Network.weight_fire (idleAt j k) (pendingMsg j k) (i := i) hp r
    have h2 := hm.pending j k
    have h3 := h.pending j k
    omega
  · have h1 := Network.weight_fire readerAt readerMsg (i := i) hp r
    have h2 := Network.weight_fire (keptAt d) keptMsg (i := i) hp r
    have h3 := hm.readers
    have h4 := h.readers
    omega

/-- The first grant to a writer finds no reader. -/
theorem readers_of_windowEnd (h : WindowInv l d t) {i : Node} {ms rest : List (Msg Node)}
    (hp : t.msgs.Perm (ms ++ rest)) {r : Peer Node × List (Msg Node)}
    (he : WindowEnd d (stateHandled t) i (t.node i) ms r.1 r.2) :
    (t.fire i rest r).weight readerAt readerMsg = 0 := by
  have hkept : t.weight (keptAt d) keptMsg = reads (t.node d).core.request := by
    have hmsgs : (t.msgs.map keptMsg).sum = 0 := by
      apply List.sum_eq_zero
      intro n hn
      obtain ⟨m, hm, rfl⟩ := List.mem_map.mp hn
      have hs := he.handled m hm
      cases m <;> simp_all [Msg.isState, keptMsg]
    simp [Network.Net.weight, hmsgs, keptAt]
  have h1 := Network.weight_fire readerAt readerMsg (i := i) hp r
  have h2 := h.readers
  have h3 := he.readers
  obtain rfl := he.node
  omega

/-- The requests that a message stands for are those of a waiting node. -/
theorem WindowInv.waits_of_pendingMsg (h : WindowInv l d t) {m : Msg Node} (hm : m ∈ t.msgs)
    {j : Node} {k : LockType} (hp : pendingMsg j k m = 1) : (t.node j).waits k = true := by
  have h1 := Network.le_weight_msg (idleAt j k) (pendingMsg j k) t j hm
  have h2 := h.pending j k
  by_contra hw
  have h3 : idleAt j k j (t.node j) = 1 := by
    unfold idleAt
    rw [if_pos ⟨rfl, by simpa using hw⟩]
  omega

/-- Every step of a leave keeps its invariant, or leaves no reader. -/
theorem windowInv_step (hd : d ≠ l) (h : WindowInv l d t) {e : Event Node} (hl : noLeave e = true)
    (hok : inOrder t e = true) (hfirst : stateFirst t e = true)
    (hstep : step nodeList t e = some t') :
    WindowInv l d t' ∨ t'.weight readerAt readerMsg = 0 := by
  rcases Network.step_cases hstep with ⟨i, a, r, rfl, hr, rfl⟩ | ⟨m, r, rfl, hm, hr, rfl⟩
  · have hp := h.local_ i
    suffices hmove : WindowMove l d (stateHandled t) i (t.node i) [] r.1 r.2 ∨
        WindowEnd d (stateHandled t) i (t.node i) [] r.1 r.2 from
      hmove.imp (windowInv_fire h (Network.perm_act _)) (readers_of_windowEnd h (Network.perm_act _))
    change act (nodeList i) i (t.node i) a = some r at hr
    cases a with
    | askLock k =>
      refine window_askLock hp (fun hk => ?_) hr
      subst hk
      simpa [inOrder] using hok
    | resume =>
      obtain ⟨k, hth, hpred, rfl⟩ := resume_eq_some hr
      exact Or.inl (window_resume hp hth hpred)
    | semWake =>
      have hpos := (semWake_eq_some hr).2.1
      rw [hp.semaphore] at hpos
      exact absurd hpos (lt_irrefl 0)
    | unlock =>
      refine window_unlock hp (fun hmode ht => ?_) hr
      simpa [inOrder, hmode, ht] using hok
    | leaveCore d => simp [noLeave] at hl
    | leaveFinish => exact Or.inl (window_leaveFinish hd hp hr)
  · have hp := h.local_ m.dest
    have hmsg := h.msgs m hm
    suffices hmove : WindowMove l d (stateHandled t) m.dest (t.node m.dest) [m] r.1 r.2 ∨
        WindowEnd d (stateHandled t) m.dest (t.node m.dest) [m] r.1 r.2 from
      hmove.imp (windowInv_fire h (Network.perm_deliver hm))
        (readers_of_windowEnd h (Network.perm_deliver hm))
    change handle m.dest (t.node m.dest) m = some r at hr
    cases m with
    | askLock dst sender j k =>
      obtain ⟨hlocked, rfl⟩ := underMutex_eq_some hr
      apply window_handleAskLock hp hlocked hmsg
      intro hj
      have hj' : dst = j := hj
      subst hj'
      exact h.waits_of_pendingMsg hm (by simp [pendingMsg, Msg.dest])
    | getLock dst sender j k =>
      obtain ⟨rfl, hs⟩ := hmsg
      obtain ⟨-, rfl⟩ := underMutex_eq_some hr
      exact Or.inl (window_handleGetLock hp hs
        (h.waits_of_pendingMsg hm (by simp [pendingMsg, Msg.dest])))
    | unlock dst sender j k =>
      obtain ⟨hlocked, rfl⟩ := underMutex_eq_some hr
      apply window_handleUnlock hp hlocked
      intro ht
      have ht' : (t.node dst).core.haveToken = dst := ht
      simpa [inOrder, ht', Msg.dest] using hok
    | sendState dst sender rs =>
      obtain ⟨rfl, q, rfl, hq⟩ := hmsg
      obtain ⟨-, rfl⟩ := underMutex_eq_some hr
      exact Or.inl (window_handleSendState hp hq)
    | delegate n l' d' =>
      obtain ⟨hn, rfl, rfl⟩ := hmsg
      obtain ⟨-, rfl⟩ := underMutex_eq_some hr
      refine Or.inl (window_handleDelegate hp hn ?_)
      intro hnd
      have hnd' : n = d' := hnd
      simpa [stateFirst, hnd', stateHandled] using hfirst
    | delegateAck dst sender =>
      cases hr
      exact Or.inl ⟨⟨hp.mode, hp.leaver, hp.predicate, hp.noWriter, hp.token, hp.requests,
        hp.semaphore⟩, by simp, by simp, fun j k => by simp [pendingMsg, idleAt, Peer.waits],
        by simp [readerMsg, keptMsg, keptAt, readerAt, Peer.granted]⟩

/-- A node that has the token is the only one. -/
theorem Inv.not_serves (h : Inv s) {l i : Node} (hl : (s.node l).holds l = true) (hi : i ≠ l) :
    (s.node i).holds i = false := by
  by_contra hholds
  exact hi (h.holds_unique (by simpa using hholds) hl)

/-- A node without the token that names itself waits for `WRITE`. -/
theorem Inv.waits_of_self (h : Inv s) {l i : Node} (hl : (s.node l).holds l = true) (hi : i ≠ l)
    (ht : (s.node i).core.haveToken = i) : (s.node i).waits .write = true := by
  have hholds := h.not_serves hl hi
  have hread : (s.node i).waits .read = false := by
    by_contra hw
    exact (h.local_ i).reader (by simpa using hw) ht
  simpa [Peer.holds, Peer.blocked, ht, hread] using hholds

/-- No list but that of `l` itself names an idle node `l` that has the token. -/
theorem Inv.request_of_idle (h : Inv s) (hth : (s.node l).thread = .idle)
    (hl : (s.node l).holds l = true) {i : Node} (hi : i ≠ l) :
    ∀ r ∈ (s.node i).core.request, r.who ≠ l := by
  intro r hr hw
  have hholds := h.not_serves hl hi
  have h1 := Network.le_weight_pair (pendingAt l r.mode) (pendingMsg l r.mode) s hi
  have h2 := h.pending l r.mode
  have h3 : 0 < (s.node i).core.request.count ⟨r.mode, l⟩ := List.count_pos_iff.mpr (hw ▸ hr)
  have h4 : pendingAt l r.mode i (s.node i) = (s.node i).core.request.count ⟨r.mode, l⟩ := by
    simp [pendingAt, pendingIn, Peer.serves, hholds, hi, hi.symm]
  have h5 : 1 ≤ pendingAt l r.mode l (s.node l) := by
    simp [pendingAt, Peer.waits, hth]
  omega

/-- The other nodes at the start of a leave. -/
theorem Inv.windowLocal (h : Inv s) (hth : (s.node l).thread = .idle)
    (hl : (s.node l).holds l = true) {i : Node} (hi : i ≠ l) (b : Prop) :
    WindowLocal l d b i (s.node i) := by
  have hp := h.local_ i
  have hlv : ¬ ((s.node i).thread = .left ∨ ∃ d' b, (s.node i).thread = .leaving d' b) := by
    have hm := hp.mode
    rintro (h' | ⟨d', b, h'⟩) <;> simp [h'] at hm
  refine ⟨?_, iff_of_false hlv hi, hp.predicate, ?_, ?_,
    fun _ => h.request_of_idle hth hl hi, hp.semaphore⟩
  · have hm := hp.mode
    cases hth' : (s.node i).thread with
    | leaving d' b => exact absurd (Or.inr ⟨d', b, hth'⟩) hlv
    | left => exact absurd (Or.inl hth') hlv
    | _ =>
      rw [hth'] at hm
      exact hm
  · by_contra hw
    exact hi (h.holds_unique (h.holds_of_writer (by simpa using hw)) hl)
  · intro ht
    exact Or.inr (Or.inl (h.waits_of_self hl hi ht))

/-- The messages in flight at the start of a leave. -/
theorem Inv.windowMsg (h : Inv s) (hth : (s.node l).thread = .idle)
    (hl : (s.node l).holds l = true) {m : Msg Node} (hm : m ∈ s.msgs) (b : Prop) :
    WindowMsg l d b m := by
  have hmsg := h.msgs m hm
  cases m with
  | askLock dst sender j k =>
    intro hj
    have hw : (s.node j).waits k = true := h.waits_of_pendingMsg hm (by simp [pendingMsg])
    simp [hj, Peer.waits, hth] at hw
  | getLock j sender j' k =>
    refine ⟨?_, fun hs => absurd hs hmsg⟩
    cases k with
    | read => rfl
    | write =>
      have h1 := Network.le_weight_msg tokenAt tokenMsg s l hm
      have h2 := h.token
      simp only [tokenAt, hl, tokenMsg, Bool.toNat_true] at h1
      omega
  | unlock dst sender j k => trivial
  | _ => exact hmsg.elim

/-- There are no more readers than `READ` entries in the list of the node that has the token. -/
theorem Inv.readers_le (h : Inv s) (hl : (s.node l).holds l = true) :
    s.weight readerAt readerMsg ≤ reads (s.node l).core.request := by
  have h1 : (s.weight recordedAt fun _ => 0) = recordedAt l (s.node l) := by
    rw [Network.Net.weight, sum_map_zero, Nat.add_zero]
    refine Finset.sum_eq_single l (fun i _ hi => ?_) (fun hne => absurd (Finset.mem_univ l) hne)
    simp [recordedAt, Peer.serves, h.not_serves hl hi]
  have h2 : recordedAt l (s.node l) ≤ reads (s.node l).core.request := by
    unfold recordedAt
    split <;> omega
  have h3 := h.readers
  omega

/-- The start of the leave of a node that has the token and does not use it, and whose `READ`
entries are those of readers. -/
theorem windowInv_start (h : Inv s) (hth : (s.node l).thread = .idle)
    (ht : (s.node l).core.haveToken = l) (hn : ∀ n ∈ nodeList l, n ≠ l)
    (hreaders : ∀ r ∈ (s.node l).core.request, r.mode = .read →
      (s.node r.who).thread = .returned .read)
    (hstep : step nodeList s (.act l (.leaveCore d)) = some t) : WindowInv l d t := by
  have hp := h.local_ l
  have hmode : (s.node l).core.mode = .none := by
    have hm := hp.mode
    rwa [hth] at hm
  have hl : (s.node l).holds l = true := by
    simp [Peer.holds, Peer.blocked, Peer.waits, ht, hth]
  have hown : ∀ r ∈ (s.node l).core.request, r.who ≠ l := by
    intro r hr hw
    cases hk : r.mode with
    | read => exact absurd (hth.symm.trans (hw ▸ hreaders r hr hk)) (by simp)
    | write =>
      have h1 := Network.le_weight_node (pendingAt l .write) (pendingMsg l .write) s l
      have h2 := h.pending l .write
      have h3 : 0 < (s.node l).core.request.count ⟨.write, l⟩ :=
        List.count_pos_iff.mpr (hk ▸ hw ▸ hr)
      simp [pendingAt, pendingIn, Peer.waits, hth] at h1
      omega
  obtain ⟨r, hr, rfl⟩ := Option.map_eq_some_iff.mp hstep
  change leaveCore l (nodeList l) (s.node l) d = some r at hr
  rw [leaveCore_idle hth hmode ht d] at hr
  obtain ⟨hcore, hthread, hout⟩ : r.1.core = (s.node l).core ∧ r.1.thread = .leaving d true ∧
      r.2 = .sendState d l (some (s.node l).core.request) ::
        (nodeList l).map fun n => .delegate n l d := by
    cases hr
    exact ⟨rfl, rfl, rfl⟩
  have hmem : Msg.sendState d l (some (s.node l).core.request) ∈ (s.fire l s.msgs r).msgs := by
    rw [Network.fire_msgs, hout]
    exact List.mem_append_right _ List.mem_cons_self
  refine ⟨?_, ?_, ?_, ?_⟩
  · intro i
    by_cases hi : i = l
    · subst hi
      rw [Network.fire_node_self]
      refine ⟨?_, by simp [hthread], ?_, by simp [Peer.granted, hthread],
        fun _ => Or.inl ⟨d, true, hthread⟩, fun hne => absurd rfl hne, hcore ▸ hp.semaphore⟩
      · rw [hthread, hcore]
        exact ⟨hmode, ht, rfl, rfl⟩
      · intro hpred
        obtain ⟨k, hk⟩ := hp.predicate (hcore ▸ hpred)
        exact absurd (hth.symm.trans hk) (by simp)
    · rw [Network.fire_node_ne _ _ _ hi]
      exact h.windowLocal hth hl hi _
  · refine Network.forall_msgs_fire (fun m hm => h.windowMsg hth hl hm _) (Network.perm_act _)
      ?_
    intro m hm
    rw [hout] at hm
    rcases List.mem_cons.mp hm with rfl | hm
    · exact ⟨rfl, _, rfl, hown⟩
    · obtain ⟨n, hmem, rfl⟩ := List.mem_map.mp hm
      exact ⟨hn n hmem, rfl, rfl⟩
  · intro j k
    -- the leaver waits neither before nor after
    have h1 : s.weight (idleAt j k) (pendingMsg j k) ≤ 1 := by
      refine (Network.weight_mono (fun i p => ?_) (pendingMsg j k) s).trans (h.pending j k)
      simp only [idleAt, pendingAt, Bool.not_eq_true]
      omega
    have h2 := Network.weight_fire (idleAt j k) (pendingMsg j k) (i := l) (Network.perm_act s.msgs) r
    have h3 : (r.2.map (pendingMsg j k)).sum = 0 := by
      simp [hout, Function.comp_def, pendingMsg]
    have h4 : idleAt j k l r.1 = idleAt j k l (s.node l) := by
      simp [idleAt, Peer.waits, hthread, hth]
    omega
  · have h1 := Network.weight_fire readerAt readerMsg (i := l) (Network.perm_act s.msgs) r
    have h2 := h.readers_le hl
    have h3 := Network.le_weight_msg (keptAt d) keptMsg (s.fire l s.msgs r) l hmem
    have h4 : (r.2.map readerMsg).sum = 0 := by
      simp [hout, Function.comp_def, readerMsg]
    have h5 : readerAt l r.1 = 0 := by simp [readerAt, Peer.granted, hthread]
    simp only [keptMsg] at h3
    omega

/-! ## Runs -/

/-- A reader stays one until it calls `unlock`. -/
theorem reader_step (h : WindowInv l d t) {e : Event Node} (hl : noLeave e = true)
    (hok : inOrder t e = true) (hstep : step nodeList t e = some t') {n : Node}
    (hn : (t.node n).thread = .returned .read) :
    e = .act n .unlock ∨ (t'.node n).thread = .returned .read := by
  rcases Network.step_cases hstep with ⟨i, a, r, rfl, hr, rfl⟩ | ⟨m, r, rfl, hm, hr, rfl⟩
  · by_cases hni : n = i
    · subst hni
      rw [Network.fire_node_self]
      have hmode : (t.node n).core.mode = .reading := by
        have hm := (h.local_ n).mode
        rwa [hn] at hm
      change act (nodeList n) n (t.node n) a = some r at hr
      cases a with
      | unlock => exact Or.inl rfl
      | askLock k =>
        right
        cases k with
        | write => simp [inOrder, hmode] at hok
        | read =>
          rcases (askLock_cases hr).2 with ⟨-, rfl⟩ | ⟨h0, -⟩ | ⟨h0, -⟩ | ⟨h0, -⟩ | ⟨h0, -⟩
          · simp [hn, Thread.held, LockType.max]
          all_goals exact absurd (hmode.symm.trans h0) (by simp)
      | resume =>
        obtain ⟨k, hth, -⟩ := resume_eq_some hr
        exact absurd (hn.symm.trans hth) (by simp)
      | semWake => exact absurd (hn.symm.trans (semWake_eq_some hr).1) (by simp)
      | leaveCore d' => simp [noLeave] at hl
      | leaveFinish =>
        obtain ⟨d', b, hth, -⟩ := leaveFinish_eq_some hr
        exact absurd (hn.symm.trans hth) (by simp)
    · rw [Network.fire_node_ne _ _ _ hni]
      exact Or.inr hn
  · right
    by_cases hni : n = m.dest
    · subst hni
      exact ((congrArg Peer.thread (Network.fire_node_self _ _ _ _)).trans (handle_thread hr)).trans hn
    · exact (congrArg Peer.thread (Network.fire_node_ne _ _ _ hni)).trans hn

theorem readersOut_step (hd : d ≠ l) {rs : List (Request Node)} {evs : List (Event Node)}
    {e : Event Node} (h : ReadersOut l d rs t evs)
    (hok : (noLeave e && inOrder t e && stateFirst t e) = true)
    (hstep : step nodeList t e = some t') : ReadersOut l d rs t' (evs ++ [e]) := by
  rcases h with h | ⟨hinv, hrs⟩
  · exact Or.inl fun r hr hk => List.mem_append_left _ (h r hr hk)
  · simp only [Bool.and_eq_true] at hok
    have hthread : ∀ r ∈ rs, r.mode = .read →
        .act r.who .unlock ∈ evs ++ [e] ∨ (t'.node r.who).thread = .returned .read := by
      intro r hr hk
      rcases hrs r hr hk with h | h
      · exact Or.inl (List.mem_append_left _ h)
      · refine (reader_step hinv hok.1.1 hok.1.2 hstep h).imp (fun he => ?_) id
        exact List.mem_append_right _ (by simp [he])
    rcases windowInv_step hd hinv hok.1.1 hok.1.2 hok.2 hstep with h' | h'
    · exact Or.inr ⟨h', hthread⟩
    · refine Or.inl fun r hr hk => (hthread r hr hk).resolve_right ?_
      intro hth
      have hle := Network.le_weight_node readerAt readerMsg t' r.who
      simp [readerAt, Peer.granted, hth, h'] at hle

/-- Exclusion is kept across a leave: the node `l` has the token, does not use it, and leaves with
readers in its list. In every run from there in which the delegate handles `SEND_STATE` before its
`DELEGATE`, every hand-over is safe and no node in mode `READING` calls `ask_lock(WRITE)`, a
`GET_LOCK(WRITE)` is only sent after all these readers have called `unlock`. -/
theorem leave_keeps_exclusion {owner : Node} {es₀ es : List (Event Node)}
    (hrun₀ : Network.run (step nodeList) (initNet owner) es₀ = some s)
    (hok₀ : Network.Meets (step nodeList) (fun s e => noLeave e && inOrder s e) (initNet owner) es₀)
    (hth : (s.node l).thread = .idle) (ht : (s.node l).core.haveToken = l) (hd : d ≠ l)
    (hn : ∀ n ∈ nodeList l, n ≠ l)
    (hreaders : ∀ r ∈ (s.node l).core.request, r.mode = .read →
      (s.node r.who).thread = .returned .read)
    (hrun : Network.run (step nodeList) s (.act l (.leaveCore d) :: es) = some t)
    (hok : ∀ s₁, step nodeList s (.act l (.leaveCore d)) = some s₁ →
      Network.Meets (step nodeList) (fun s e => noLeave e && inOrder s e && stateFirst s e) s₁ es)
    {q j : Node} (hm : Msg.getLock q d j .write ∈ t.msgs) :
    ∀ r ∈ (s.node l).core.request, r.mode = .read → .act r.who .unlock ∈ es := by
  obtain ⟨s₁, hstart, hrun₁⟩ := Network.run_cons_eq_some.mp hrun
  have hinv := windowInv_start (inv_run hrun₀ hok₀) hth ht hn hreaders hstart
  have h₁ : ReadersOut l d (s.node l).core.request s₁ [] := by
    refine Or.inr ⟨hinv, fun r hr hk => Or.inr ?_⟩
    obtain ⟨x, -, rfl⟩ := Option.map_eq_some_iff.mp hstart
    have hr' := hreaders r hr hk
    have hne : r.who ≠ l := fun h => absurd (hth.symm.trans (h ▸ hr')) (by simp)
    rw [Network.fire_node_ne _ _ _ hne]
    exact hr'
  have hsim : ∀ t evs e t', ReadersOut l d (s.node l).core.request t evs →
      (noLeave e && inOrder t e && stateFirst t e) = true → step nodeList t e = some t' →
      ReadersOut l d (s.node l).core.request t' (evs ++ [e]) := fun t evs e t' h hok hstep =>
    readersOut_step hd h hok hstep
  rcases Network.run_history hsim h₁ (hok s₁ hstart) hrun₁ with h | ⟨hinv, -⟩
  · exact h
  · -- while a reader is left, no `GET_LOCK(WRITE)` is in flight
    exact absurd (hinv.msgs _ hm).1 (by simp)

end Run

/-! ## Leaves of four nodes -/

/-- Every node knows the other three. -/
def peers (n : Fin 4) : List (Fin 4) := (List.finRange 4).filter fun m => m ≠ n

/-- The node `b` reads, and the node `a` has the token. -/
def readerRun (a b : Node) : List (Event Node) :=
  [.act b (.askLock .read), .deliver (.askLock a b b .read), .deliver (.getLock b a a .read),
    .act b .resume]

/-- The node `a` leaves, and the node `c` is its delegate; the node `d` asks for `WRITE`, and gets
it after the node `b` has called `unlock`. -/
def orderedLeave (a b c d : Node) : List (Event Node) :=
  [.deliver (.sendState c a (some [⟨.read, b⟩])), .deliver (.delegate c a c),
    .deliver (.delegate d a c), .deliver (.delegate b a c), .act d (.askLock .write),
    .deliver (.askLock c d d .write), .act b .unlock, .deliver (.unlock c b b .read)]

theorem leave_keeps_exclusion_ordered :
    ∃ s t, Network.run (step peers) (initNet 0) (readerRun 0 1) = some s ∧
      ⟨.read, 1⟩ ∈ (s.node 0).core.request ∧
      Network.run (step peers) s (.act 0 (.leaveCore 2) :: orderedLeave 0 1 2 3) = some t ∧
      Msg.getLock 3 2 2 .write ∈ t.msgs ∧ .act 1 .unlock ∈ orderedLeave (0 : Fin 4) 1 2 3 := by
  have hrun₀ : Network.run (step peers) (initNet 0) (readerRun 0 1) = some _ := rfl
  refine ⟨_, _, hrun₀, by decide, rfl, by decide, ?_⟩
  refine leave_keeps_exclusion (l := 0) (d := 2) (q := 3) (j := 2) hrun₀ (by decide) (by decide)
    (by decide) (by decide) (by decide) (by decide) rfl (fun s₁ hs₁ => ?_) (by decide) ⟨.read, 1⟩
    (by decide) rfl
  cases hs₁
  decide

/-- The delegate `b` handles `DELEGATE` first, and the node `c` asks for `WRITE`. -/
def delegateFirst (a b c : Node) : List (Event Node) :=
  [.deliver (.delegate b a b), .deliver (.delegate c a b), .act c (.askLock .write),
    .deliver (.askLock b c c .write)]

/-- The node 2 sends `GET_LOCK(WRITE)` while the node 1 still reads. -/
theorem delegate_forgets_reader :
    ∃ s t, Network.run (step peers) (initNet 0) (readerRun 0 1) = some s ∧
      (s.node 0).thread = .idle ∧ (s.node 0).core.haveToken = 0 ∧
      (s.node 0).core.request = [⟨.read, 1⟩] ∧ (s.node 1).thread = .returned .read ∧
      Network.run (step peers) s (.act 0 (.leaveCore 2) :: delegateFirst 0 2 3) = some t ∧
      Msg.getLock 3 2 2 .write ∈ t.msgs ∧ .act 1 .unlock ∉ delegateFirst (0 : Fin 4) 2 3 := by
  exact ⟨_, _, rfl, by decide, by decide, by decide, by decide, rfl, by decide, by decide⟩

end PageLock
