import Psar.Core.Exclusion
import Psar.Core.Proofs.PageLockProofs
import Psar.Library.Proofs.NetworkProofs

/-!
# Proofs: reader/writer exclusion

Each function of the page lock moves one node from one local state to another, consumes at most one
message and sends some. `Move` says what such a move does to the weights of `Psar.Core.Exclusion`;
one lemma for each function shows that it is a `Move`, and a `Move` keeps the invariant.
-/

namespace PageLock

variable {Node : Type}

/-- The node `i` moves from `p` to `p'`, consumes the messages `ms` and sends `out`, without
creating or losing a token, a request or a reader. -/
structure Move [DecidableEq Node] (i : Node) (p : Peer Node) (ms : List (Msg Node)) (p' : Peer Node)
    (out : List (Msg Node)) : Prop where
  local_ : LocalInv i p'
  msgs : ∀ m ∈ out, MsgInv m
  token : tokenAt i p' + (out.map tokenMsg).sum = tokenAt i p + (ms.map tokenMsg).sum
  pending : ∀ j k, pendingAt j k i p' + (out.map (pendingMsg j k)).sum ≤
    pendingAt j k i p + (ms.map (pendingMsg j k)).sum
  readers : readerAt i p' + (out.map readerMsg).sum + recordedAt i p ≤
    readerAt i p + (ms.map readerMsg).sum + recordedAt i p'

theorem sum_map_zero (l : List (Msg Node)) : (l.map fun _ => 0).sum = 0 := by simp

section Inv

variable [DecidableEq Node] [Fintype Node] {s : Net Node}

/-- A `Move` keeps the invariant. -/
theorem inv_fire (h : Inv s) {i : Node} {ms rest : List (Msg Node)}
    (hp : s.msgs.Perm (ms ++ rest)) {r : Peer Node × List (Msg Node)}
    (hm : Move i (s.node i) ms r.1 r.2) : Inv (s.fire i rest r) where
  local_ := Network.forall_node_fire h.local_ hm.local_
  msgs := Network.forall_msgs_fire h.msgs hp hm.msgs
  token := by
    have h1 := Network.weight_fire tokenAt tokenMsg (i := i) hp r
    have h2 := hm.token
    have h3 := h.token
    omega
  pending := by
    intro j k
    have h1 := Network.weight_fire (pendingAt j k) (pendingMsg j k) (i := i) hp r
    have h2 := hm.pending j k
    have h3 := h.pending j k
    omega
  readers := by
    have h1 := Network.weight_fire readerAt readerMsg (i := i) hp r
    have h2 := Network.weight_fire recordedAt (fun _ => 0) (i := i) hp r
    have h3 := hm.readers
    have h4 := h.readers
    simp only [sum_map_zero] at h2
    omega

end Inv

/-! ## Request lists -/

@[simp] theorem reads_nil : reads ([] : List (Request Node)) = 0 := rfl

@[simp] theorem reads_cons (r : Request Node) (l : List (Request Node)) :
    reads (r :: l) = reads l + if r.mode = .read then 1 else 0 := by
  simp [reads, List.countP_cons]

@[simp] theorem addRequest_request (c : CoreInfo Node) (who : Node) (m : LockType) :
    (addRequest c who m).request = ⟨m, who⟩ :: c.request := rfl

/-- The readers that a writer lets in are recorded in its list. -/
theorem sum_takeWhile_reader (i : Node) (l : List (Request Node)) :
    (((l.takeWhile fun r => r.mode = .read).map fun r => Msg.getLock r.who i i .read).map
      readerMsg).sum ≤ reads l := by
  induction l with
  | nil => simp
  | cons r l ih =>
    by_cases hr : r.mode = .read
    · simp only [List.takeWhile_cons, hr, decide_true, if_true, List.map_cons, List.sum_cons,
        reads_cons]
      simp only [readerMsg] at *
      omega
    · simp [hr]

variable [DecidableEq Node]

theorem reads_le_eraseP (l : List (Request Node)) (who : Node) :
    reads l ≤ reads (l.eraseP fun r => r.who = who) + 1 := by
  simp only [reads]
  rcases List.exists_or_eq_self_of_eraseP (fun r => decide (r.who = who)) l with h | h
  · rw [h]; omega
  · obtain ⟨a, l₁, l₂, -, -, h1, h2⟩ := h
    rw [h2, h1]
    simp only [List.countP_append, List.countP_cons]
    split <;> omega

/-- `handle_local_UNLOCK` only removes entries of the list, at most one of them a `READ` entry; it
may hand the token over to the `WRITE` request of another node at the head of the list. -/
theorem handleLocalUnlock_reads (i fr : Node) (c : CoreInfo Node) :
    (∃ l, handleLocalUnlock i c fr = ({ c with request := l }, []) ∧
      l.Sublist c.request ∧ reads c.request ≤ reads l + 1) ∨
    (∃ q l, q ≠ i ∧ (removeRequest c fr).request = ⟨.write, q⟩ :: l ∧
      handleLocalUnlock i c fr =
        ({ c with request := l, haveToken := q }, [.getLock q i i .write]) ∧
      (⟨.write, q⟩ :: l).Sublist c.request ∧ reads c.request ≤ reads l + 1) := by
  have hsub : (removeRequest c fr).request.Sublist c.request := List.eraseP_sublist
  have hreads : reads c.request ≤ reads (removeRequest c fr).request + 1 :=
    reads_le_eraseP c.request fr
  rcases handleLocalUnlock_cases i fr c with ⟨-, heq⟩ | ⟨t, ht, heq⟩ | ⟨q, t, hqi, hq, heq⟩
  · exact Or.inl ⟨_, heq, hsub, hreads⟩
  · have hrt : reads (removeRequest c fr).request = reads t := by rw [ht]; simp
    refine Or.inl ⟨t, heq, ?_, by omega⟩
    exact ((List.sublist_cons_self _ t).trans (ht ▸ hsub))
  · have hrt : reads (removeRequest c fr).request = reads t := by rw [hq]; simp
    exact Or.inr ⟨q, t, hqi, hq, heq, hq ▸ hsub, by omega⟩

theorem count_read_of_reads {l : List (Request Node)} (h : reads l = 0) (j : Node) :
    l.count ⟨.read, j⟩ = 0 := by
  apply List.count_eq_zero.mpr
  intro hmem
  have := List.countP_eq_zero.mp h _ hmem
  simp at this

/-- A safe hand-over leaves no `READ` entry behind. -/
theorem reads_of_safeRelease {i fr q : Node} {p : Peer Node} {l : List (Request Node)}
    (hsafe : safeRelease i p fr = true) (hq : q ≠ i)
    (hl : (removeRequest p.core fr).request = ⟨.write, q⟩ :: l) :
    p.waits .write = false ∧ reads l = 0 := by
  simp only [safeRelease, hl, Bool.or_eq_true, decide_eq_true_eq, hq, false_or,
    Bool.and_eq_true, Bool.not_eq_true', List.all_eq_true] at hsafe
  refine ⟨hsafe.1, List.countP_eq_zero.mpr ?_⟩
  intro e he
  simp [hsafe.2 e he]

/-! ## The actions of the application thread -/

theorem LocalInv.thread_of_none {i : Node} {p : Peer Node} (hp : LocalInv i p)
    (h : p.core.mode = .none) : p.thread = .idle := by
  have hmode := hp.mode
  cases hth : p.thread with
  | idle => rfl
  | condWait k => cases k <;> simp [hth, h, LockType.toStatus] at hmode
  | returned k => cases k <;> simp [hth, h, LockType.toStatus] at hmode
  | _ => simp [hth, h] at hmode

theorem LocalInv.thread_of_reading {i : Node} {p : Peer Node} (hp : LocalInv i p)
    (h : p.core.mode = .reading) : p.thread = .condWait .read ∨ p.thread = .returned .read := by
  have hmode := hp.mode
  cases hth : p.thread with
  | condWait k => cases k <;> simp [hth, h, LockType.toStatus] at hmode ⊢
  | returned k => cases k <;> simp [hth, h, LockType.toStatus] at hmode ⊢
  | _ => simp [hth, h] at hmode

section Moves

attribute [local simp] tokenAt Peer.holds Peer.blocked Peer.waits Peer.granted pendingAt pendingIn
  Peer.serves readerAt recordedAt MsgInv tokenMsg pendingMsg readerMsg LockType.toStatus

theorem move_resume {i : Node} {p : Peer Node} (hp : LocalInv i p) {m : LockType}
    (ht : p.thread = .condWait m) (hpred : p.core.predicate = true) :
    Move i p [] { p with core := { p.core with predicate := false }, thread := .returned m } [] := by
  obtain ⟨⟨mode, request, haveToken, sem, pred⟩, thread, ctr⟩ := p
  simp only at ht hpred
  subst ht hpred
  obtain ⟨h1, h2, h3, h4, h5⟩ := hp
  cases m
  all_goals
    refine ⟨⟨?_, ?_, ?_, ?_, ?_⟩, ?_, ?_, ?_, ?_⟩
    all_goals simp_all

theorem move_askLock {i : Node} {p : Peer Node} (hp : LocalInv i p) {m : LockType}
    (hm : m = .write → p.core.mode ≠ .reading) {r : Peer Node × List (Msg Node)}
    (h : askLock i p m = some r) : Move i p [] r.1 r.2 := by
  obtain ⟨⟨mode, request, haveToken, sem, pred⟩, thread, ctr⟩ := p
  obtain ⟨h1, h2, h3, h4, h5⟩ := hp
  cases thread with
  | idle =>
    simp only at h1
    subst h1
    have hpred : pred = false := by simpa using h2
    subst hpred
    simp only [askLock, askLockBody, if_true, Option.some.injEq] at h
    subst h
    by_cases ht : haveToken = i
    · by_cases hl : request ≠ [] ∨ m = .read
      · -- the request is queued
        cases m
        all_goals
          simp only [ht, hl, if_true]
          refine ⟨⟨?_, ?_, ?_, ?_, ?_⟩, ?_, ?_, fun j k => ?_, ?_⟩
          all_goals simp_all [addRequest]
        · cases k <;> simp
        · omega
        · cases k
          · simp
          · by_cases hj : j = i
            · simp [hj]
            · simp [hj, Ne.symm hj]
      · -- nobody is recorded: the lock is taken
        obtain ⟨rfl, rfl⟩ : request = [] ∧ m = .write := by
          cases m <;> simp_all
        simp only [ht, if_true]
        refine ⟨⟨?_, ?_, ?_, ?_, ?_⟩, ?_, ?_, fun j k => ?_, ?_⟩
        all_goals simp_all
    · -- the request is sent to the supposed owner of the token
      simp only [ht, if_false, Bool.false_eq_true]
      cases m
      all_goals
        refine ⟨⟨?_, ?_, ?_, ?_, ?_⟩, ?_, ?_, fun j k => ?_, ?_⟩
        all_goals simp_all
      all_goals
        by_cases hj : i = j <;> cases k <;> simp [hj]
  | returned m' =>
    -- the page is already locked
    simp only at h1 hm
    have hm' : (LockType.toStatus m') ≠ .none := by cases m' <;> simp
    simp only [askLock, h1, hm', if_false, Option.some.injEq, Thread.held] at h
    subst h
    have hheld : m.max m' = m' := by
      cases m <;> cases m' <;> simp_all [LockType.max]
    rw [hheld]
    subst h1
    exact ⟨⟨rfl, h2, h3, h4, h5⟩, by simp, by simp, fun j k => by simp, by simp⟩
  | _ => simp [askLock] at h

theorem sum_takeWhile_pending (i j : Node) (k : LockType) (l : List (Request Node)) :
    (((l.takeWhile fun r => r.mode = .read).map fun r => Msg.getLock r.who i i .read).map
      (pendingMsg j k)).sum ≤ if k = .read then l.count ⟨.read, j⟩ else 0 := by
  induction l with
  | nil => simp
  | cons r l ih =>
    obtain ⟨m, q⟩ := r
    cases m with
    | write => simp
    | read =>
      simp only [List.takeWhile_cons, decide_true, if_true, List.map_cons, List.sum_cons]
      cases k with
      | write => simpa using ih
      | read =>
        by_cases hq : q = j
        · simp [hq] at ih ⊢
          omega
        · simp [hq] at ih ⊢
          omega

/-- `unlock` of a writer: the readers at the head of the list are let in, or the token is handed
over to the writer at the head. -/
theorem move_unlock_writing {i : Node} {c : CoreInfo Node} {ctr : ℤ} (hmode : c.mode = .writing)
    (ht : c.haveToken = i) (hpred : c.predicate = false) (hsem : c.writeAutoLock = 0)
    (hown : ∀ k, c.request.count ⟨k, i⟩ = 0) {r : CoreInfo Node × List (Msg Node)}
    (h : unlockInternal i c = some r) :
    Move i ⟨c, .returned .write, ctr⟩ [] ⟨r.1, .idle, ctr⟩ r.2 := by
  obtain ⟨mode, request, haveToken, sem, pred⟩ := c
  simp only at hmode ht hpred hsem hown
  subst hmode ht hpred hsem
  cases request with
  | nil =>
    simp only [unlockInternal, Option.some.injEq] at h
    subst h
    refine ⟨⟨?_, ?_, ?_, ?_, ?_⟩, ?_, ?_, fun j k => ?_, ?_⟩
    all_goals simp
  | cons first rest =>
    obtain ⟨fm, fw⟩ := first
    have hfw : fw ≠ haveToken := by
      rintro rfl
      simpa using hown fm
    cases fm with
    | read =>
      simp only [unlockInternal, Option.some.injEq] at h
      subst h
      refine ⟨⟨?_, ?_, ?_, ?_, ?_⟩, ?_, ?_, ?_, ?_⟩
      · rfl
      · simp
      · simp
      · simp
      · rfl
      · intro m hm
        simp only [List.mem_map] at hm
        obtain ⟨e, he, rfl⟩ := hm
        -- the node itself has no request in its list
        rintro rfl
        have hmem := (List.takeWhile_sublist _).subset he
        have hcount := hown e.mode
        exact (List.count_eq_zero.mp hcount) hmem
      · have h0 : ∀ l : List (Request Node),
            ((l.map fun e => Msg.getLock e.who haveToken haveToken .read).map tokenMsg).sum = 0 := by
          intro l
          induction l with
          | nil => rfl
          | cons e l ih => simpa using ih
        rw [h0]
        simp
      · intro j k
        have hle := sum_takeWhile_pending haveToken j k (⟨.read, fw⟩ :: rest)
        cases k
        all_goals simp at hle ⊢
        all_goals omega
      · have hle := sum_takeWhile_reader haveToken (⟨.read, fw⟩ :: rest)
        simp at hle ⊢
        omega
    | write =>
      simp only [unlockInternal, removeRequest, decide_true, List.eraseP_cons_of_pos,
        Option.some.injEq] at h
      subst h
      refine ⟨⟨?_, ?_, ?_, ?_, ?_⟩, ?_, ?_, fun j k => ?_, ?_⟩
      all_goals simp [hfw, hfw.symm]
      cases k
      · simp
      · by_cases hj : fw = j
        · simp [hj]
        · simp [hj]

/-- `unlock` of a reader: it is removed from the list of the node, or an `UNLOCK` is sent. -/
theorem move_unlock_reading {i : Node} {c : CoreInfo Node} {ctr : ℤ} (hmode : c.mode = .reading)
    (hpred : c.predicate = false) (hsem : c.writeAutoLock = 0)
    (hsafe : c.haveToken = i → safeRelease i ⟨c, .returned .read, ctr⟩ i = true)
    {r : CoreInfo Node × List (Msg Node)} (h : unlockInternal i c = some r) :
    Move i ⟨c, .returned .read, ctr⟩ [] ⟨r.1, .idle, ctr⟩ r.2 := by
  by_cases ht : c.haveToken = i
  · simp only [unlockInternal, hmode, ht, if_true, Option.some.injEq] at h
    subst h
    rcases handleLocalUnlock_reads i i c with ⟨l, heq, hsub, hle⟩ | ⟨q, l, hq, hl, heq, hsub, hle⟩
    · rw [heq]
      refine ⟨⟨?_, ?_, ?_, ?_, ?_⟩, ?_, ?_, fun j k => ?_, ?_⟩
      all_goals simp [ht, hpred, hsem]
      · cases k
        · simp
        · simpa using hsub.count_le ⟨.write, j⟩
      · omega
    · rw [heq]
      have hr := (reads_of_safeRelease (hsafe ht) hq hl).2
      refine ⟨⟨?_, ?_, ?_, ?_, ?_⟩, ?_, ?_, fun j k => ?_, ?_⟩
      all_goals simp [ht, hpred, hsem, hq, hq.symm]
      · have hw := hsub.count_le ⟨.write, j⟩
        cases k
        · simp [count_read_of_reads hr]
        · by_cases hj : q = j <;> simp [hj] at hw ⊢ <;> omega
      · omega
  · simp only [unlockInternal, hmode, ht, if_false, Option.some.injEq] at h
    subst h
    refine ⟨⟨?_, ?_, ?_, ?_, ?_⟩, ?_, ?_, fun j k => ?_, ?_⟩
    all_goals simp [ht, hpred, hsem]

/-! ## The handlers -/

theorem move_handleGetLock {i : Node} {p : Peer Node} (hp : LocalInv i p) {d sender initiator : Node}
    {k : LockType} (hd : d = i) (hs : sender ≠ i) (hw : p.waits k = true) :
    Move i p [.getLock d sender initiator k]
      { p with core := handleGetLock i p.core sender k } [] := by
  obtain ⟨⟨mode, request, haveToken, sem, pred⟩, thread, ctr⟩ := p
  obtain ⟨h1, h2, h3, h4, h5⟩ := hp
  obtain ⟨rfl, rfl⟩ : thread = .condWait k ∧ pred = false := by simpa using hw
  simp only at h1 h5
  subst h1 h5 hd
  cases k
  all_goals
    refine ⟨⟨?_, ?_, ?_, ?_, ?_⟩, ?_, ?_, fun j k => ?_, ?_⟩
    all_goals simp [handleGetLock, hs]
  all_goals
    cases k <;> by_cases hj : d = j <;> simp [hj]

/-- Replacing the request list alone changes no role. -/
theorem move_list {i : Node} {p : Peer Node} (hp : LocalInv i p) {l : List (Request Node)}
    {ms out : List (Msg Node)} (hmsgs : ∀ m ∈ out, MsgInv m)
    (htoken : (out.map tokenMsg).sum = (ms.map tokenMsg).sum)
    (hpending : ∀ j k, (out.map (pendingMsg j k)).sum +
        (if k = .read ∧ p.serves i = true then 0 else l.count ⟨k, j⟩) ≤
      (ms.map (pendingMsg j k)).sum +
        (if k = .read ∧ p.serves i = true then 0 else p.core.request.count ⟨k, j⟩))
    (hpending' : ∀ j k, (out.map (pendingMsg j k)).sum ≤ (ms.map (pendingMsg j k)).sum)
    (hreaders : (out.map readerMsg).sum + (if p.serves i = true then reads p.core.request else 0) ≤
      (ms.map readerMsg).sum + if p.serves i = true then reads l else 0) :
    Move i p ms { p with core := { p.core with request := l } } out where
  local_ := ⟨hp.mode, hp.predicate, hp.writer, hp.reader, hp.semaphore⟩
  msgs := hmsgs
  token := by
    have h : tokenAt i { p with core := { p.core with request := l } } = tokenAt i p := rfl
    omega
  pending := by
    intro j k
    have h1 := hpending j k
    have h2 := hpending' j k
    have h3 : pendingAt j k i { p with core := { p.core with request := l } } =
        (if (k = .read ∧ p.serves i) ∨ (j = i ∧ p.thread = .semWait) then 0 else l.count ⟨k, j⟩) +
          if i = j ∧ ¬ p.waits k then 1 else 0 := rfl
    rw [h3]
    simp only [pendingAt, pendingIn]
    by_cases hs : j = i ∧ p.thread = .semWait
    · rw [if_pos (Or.inr hs), if_pos (Or.inr hs)]
      omega
    · simp only [hs, or_false]
      omega
  readers := by
    have h1 : readerAt i { p with core := { p.core with request := l } } = readerAt i p := rfl
    have h2 : recordedAt i { p with core := { p.core with request := l } } =
        if p.serves i then reads l else 0 := rfl
    rw [h1, h2]
    simp only [recordedAt]
    omega

/-- The node `i`, which has the token and is no writer, hands the token over to `q` when no reader
is recorded any more. -/
theorem move_grant {i q : Node} {p : Peer Node} (hp : LocalInv i p) (hq : q ≠ i)
    (hserves : p.serves i = true) {l : List (Request Node)} {ms : List (Msg Node)}
    (hreads : reads l = 0) (htoken : (ms.map tokenMsg).sum = 0)
    (hpending : ∀ j, (⟨.write, q⟩ :: l).count (⟨.write, j⟩ : Request Node) ≤
      p.core.request.count ⟨.write, j⟩ + (ms.map (pendingMsg j .write)).sum)
    (hreaders : reads p.core.request ≤ (ms.map readerMsg).sum) :
    Move i p ms { p with core := { p.core with request := l, haveToken := q } }
      [.getLock q i i .write] := by
  have hholds : p.holds i = true := by
    simp only [Peer.serves, Bool.and_eq_true] at hserves; exact hserves.1
  have hnw : p.granted .write = false := by
    simp only [Peer.serves, Bool.and_eq_true, Bool.not_eq_true'] at hserves; exact hserves.2
  have hnb : p.blocked = false := by
    simp only [Peer.holds, Bool.and_eq_true, Bool.not_eq_true'] at hholds; exact hholds.2
  have hnread : p.waits .read = false := by
    simp only [Peer.blocked, Bool.or_eq_false_iff] at hnb; exact hnb.1
  set p' : Peer Node := { p with core := { p.core with request := l, haveToken := q } } with hp'
  have hw' : ∀ k, p'.waits k = p.waits k := fun _ => rfl
  have hholds' : p'.holds i = false := by
    simp only [Peer.holds, hp', hq, decide_false, Bool.false_and]
  have hserves' : p'.serves i = false := by simp only [Peer.serves, hholds', Bool.false_and]
  refine ⟨⟨hp.mode, hp.predicate, ?_, ?_, hp.semaphore⟩, ?_, ?_, ?_, ?_⟩
  · intro h
    exact absurd (h.symm.trans hnw) (by simp)
  · intro h
    exact absurd (h.symm.trans hnread) (by simp)
  · simp [hq.symm]
  · simp only [tokenAt, hholds, hholds', htoken]
    simp
  · intro j k
    simp only [pendingAt, pendingIn, hw', hserves, hserves', and_true, Bool.false_eq_true, and_false,
      false_or]
    cases k with
    | read =>
      have h0 : p'.core.request.count ⟨.read, j⟩ = 0 := count_read_of_reads hreads j
      simp [h0]
    | write =>
      have h1 := hpending j
      have h2 : p'.thread = p.thread := rfl
      have h3 : p'.core.request = l := rfl
      simp only [h2, h3, reduceCtorEq, false_or]
      by_cases hs : j = i ∧ p.thread = .semWait
      · rw [if_pos hs, if_pos hs]
        have hqj : q ≠ j := fun h => hq (h.trans hs.1)
        simp [hqj]
      · rw [if_neg hs, if_neg hs]
        by_cases hqj : q = j <;> simp [hqj] at h1 ⊢ <;> omega
  · have h1 : readerAt i p' = readerAt i p := rfl
    simp only [recordedAt, hserves, hserves', h1]
    simp
    omega

/-- The handler of `UNLOCK`. It is not run by a writer, since a writer excludes the reader that sent
the message. -/
theorem move_handleUnlock {i : Node} {p : Peer Node} (hp : LocalInv i p)
    {d sender initiator : Node} {k : LockType} (hnw : p.granted .write = false)
    (hsafe : p.core.haveToken = i → safeRelease i p sender = true) :
    Move i p [.unlock d sender initiator k]
      { p with core := (handleUnlock i p.core sender initiator k).1 }
      (handleUnlock i p.core sender initiator k).2 := by
  by_cases ht : p.core.haveToken = i
  · simp only [handleUnlock, ht, ne_eq, not_true_eq_false, if_false]
    rcases handleLocalUnlock_reads i sender p.core with
      ⟨l, heq, hsub, hle⟩ | ⟨q, l, hq, hl, heq, hsub, hle⟩
    · rw [heq]
      refine move_list hp (by simp) (by simp) (fun j k => ?_) (fun j k => by simp) ?_
      · have hcount := hsub.count_le ⟨k, j⟩
        simp only [List.map_nil, List.sum_nil]
        split <;> omega
      · simp only [List.map_nil, List.sum_nil, List.map_cons, List.sum_cons, readerMsg]
        split <;> omega
    · rw [heq]
      obtain ⟨hnwait, hr⟩ := reads_of_safeRelease (hsafe ht) hq hl
      -- a node with the token that does not wait for `WRITE` does not wait at all
      have hnread : p.waits .read = false := by
        by_contra hw
        exact hp.reader (by simpa using hw) ht
      have hserves : p.serves i = true := by
        simp only [Peer.serves, Peer.holds, Peer.blocked, hnwait, hnread, hnw, ht]
        simp
      refine move_grant hp hq hserves hr (by simp) (fun j => ?_) (by simp; omega)
      exact (hsub.count_le _).trans (Nat.le_add_right _ _)
  · simp only [handleUnlock, ht, ne_eq, not_false_eq_true, if_true]
    exact move_list hp (by simp) (by simp) (fun j k => by simp) (fun j k => by simp) (by simp)

/-- A request is queued: the `ASK_LOCK` becomes an entry of the list. -/
theorem move_addRequest {i : Node} {p : Peer Node} (hp : LocalInv i p)
    {d sender initiator : Node} {k : LockType} :
    Move i p [.askLock d sender initiator k]
      { p with core := addRequest p.core initiator k } [] := by
  refine move_list hp (by simp) (by simp) (fun j k' => ?_) (fun j k' => by simp) ?_
  · by_cases hj : initiator = j <;> by_cases hk : k = k' <;> simp [hj, hk]
    all_goals split <;> omega
  · simp only [List.map_nil, List.sum_nil, List.map_cons, List.sum_cons, readerMsg, reads_cons]
    split <;> omega

/-- A reader is let in by the node that has the token: the `ASK_LOCK` becomes an entry and a
`GET_LOCK`. -/
theorem move_grantRead {i : Node} {p : Peer Node} (hp : LocalInv i p) (hserves : p.serves i = true)
    {d sender initiator : Node} (hne : i ≠ initiator) :
    Move i p [.askLock d sender initiator .read]
      { p with core := addRequest p.core initiator .read } [.getLock initiator i i .read] := by
  refine move_list hp (by simpa using hne) (by simp) (fun j k' => ?_) (fun j k' => by simp) ?_
  · cases k'
    · simp only [hserves]; simp
    · simp
  · simp only [hserves, List.map_nil, List.sum_nil, List.map_cons, List.sum_cons, readerMsg,
      reads_cons, if_true]
    omega

/-- An `ASK_LOCK(WRITE)` is passed on, and `have_token` names its initiator from now on. -/
theorem move_forwardWrite {i : Node} {p : Peer Node} (hp : LocalInv i p)
    {d d' sender initiator : Node} (ht : p.core.haveToken ≠ i)
    (hw : i = initiator → p.waits .write = true) :
    Move i p [.askLock d sender initiator .write]
      { p with core := { p.core with haveToken := initiator } }
      [.askLock d' i initiator .write] := by
  set p' : Peer Node := { p with core := { p.core with haveToken := initiator } } with hp'
  have hw' : ∀ k, p'.waits k = p.waits k := fun _ => rfl
  have hholds : p.holds i = false := by simp only [Peer.holds, ht, decide_false, Bool.false_and]
  -- the initiator itself is still waiting
  have hholds' : p'.holds i = false := by
    by_cases hi : i = initiator
    · have hb : p'.blocked = true := by simp only [Peer.blocked, hw', hw hi, Bool.or_true]
      simp only [Peer.holds, hb, Bool.not_true, Bool.and_false]
    · simp only [Peer.holds, hp', Ne.symm hi, decide_false, Bool.false_and]
  have hserves : p.serves i = false := by simp only [Peer.serves, hholds, Bool.false_and]
  have hserves' : p'.serves i = false := by simp only [Peer.serves, hholds', Bool.false_and]
  refine ⟨⟨hp.mode, hp.predicate, ?_, ?_, hp.semaphore⟩, ?_, ?_,
    ?_, ?_⟩
  · intro h
    exact absurd (hp.writer h) ht
  · intro h hi
    have h1 : p.waits .read = true := h
    have h2 := hw (show i = initiator from hi.symm)
    simp only [Peer.waits, Bool.and_eq_true, decide_eq_true_eq] at h1 h2
    exact absurd (h1.1.symm.trans h2.1) (by simp)
  · simp
  · simp only [tokenAt, hholds, hholds']
    simp
  · intro j k
    simp only [pendingAt, pendingIn, hw', hserves, hserves']
    simp [hp']
  · have h1 : readerAt i p' = readerAt i p := rfl
    simp only [recordedAt, hserves, hserves', h1]
    simp

/-- The handler of `ASK_LOCK`. -/
theorem move_handleAskLock {i : Node} {p : Peer Node} (hp : LocalInv i p)
    {d sender initiator : Node} {k : LockType} (hw : i = initiator → p.waits k = true) :
    Move i p [.askLock d sender initiator k]
      { p with core := (handleAskLock i p.core initiator k).1 }
      (handleAskLock i p.core initiator k).2 := by
  cases hl : findLastWriter p.core with
  | some lw =>
    by_cases hlw : lw.who = i
    · simp only [handleAskLock, hl, hlw, if_true]
      exact move_addRequest hp
    · simp only [handleAskLock, hl, hlw, if_false]
      exact move_list hp (by simp) (by simp) (fun j k' => by simp) (fun j k' => by simp) (by simp)
  | none =>
    by_cases ht : p.core.haveToken = i
    · by_cases hm : p.core.mode = .none
      · -- the node has the token and does not use it
        have hidle := hp.thread_of_none hm
        have hne : i ≠ initiator := by
          intro hi
          have := hw hi
          simp [Peer.waits, hidle] at this
        have hserves : p.serves i = true := by
          simp [Peer.serves, Peer.holds, Peer.blocked, Peer.waits, Peer.granted, hidle, ht]
        cases k with
        | write =>
          by_cases hr : p.core.request = []
          · have heq : handleAskLock i p.core initiator .write =
                ({ p.core with request := [], haveToken := initiator },
                  [.getLock initiator i i .write]) := by
              simp [handleAskLock, hl, ht, hm, hr]
            rw [heq]
            refine move_grant hp hne.symm hserves rfl (by simp) (fun j => ?_) (by simp [hr])
            by_cases hj : initiator = j <;> simp [hj]
          · simp only [handleAskLock, hl, ht, hm, hr, if_true, if_false]
            exact move_addRequest hp
        | read =>
          simp only [handleAskLock, hl, ht, hm, if_true]
          exact move_grantRead hp hserves hne
      · by_cases hg : p.core.mode = .reading ∧ k = .read
        · obtain ⟨hmr, rfl⟩ := hg
          simp only [handleAskLock, hl, ht, hmr, reduceCtorEq, if_true, if_false, and_self]
          -- a reader with the token has it for itself
          have hnread : p.waits .read = false := by
            by_contra hwr
            exact hp.reader (by simpa using hwr) ht
          have hserves : p.serves i = true := by
            have hnw : p.waits .write = false ∧ p.granted .write = false := by
              rcases hp.thread_of_reading hmr with h | h <;> simp [Peer.waits, Peer.granted, h]
            simp only [Peer.serves, Peer.holds, Peer.blocked, hnread, hnw, ht]
            simp
          apply move_grantRead hp hserves
          intro hi
          exact absurd ((hw hi).symm.trans hnread) (by simp)
        · simp only [handleAskLock, hl, ht, hm, hg, if_true, if_false]
          exact move_addRequest hp
    · cases k with
      | read =>
        simp only [handleAskLock, hl, ht, if_false, reduceCtorEq]
        exact move_list hp (by simp) (by simp) (fun j k' => by simp) (fun j k' => by simp) (by simp)
      | write =>
        simp only [handleAskLock, hl, ht, if_false, if_true]
        exact move_forwardWrite hp ht hw

end Moves

/-- As long as nobody leaves, the page mutex is not kept. -/
theorem LocalInv.unlocked {i : Node} {p : Peer Node} (hp : LocalInv i p) : p.locked = false := by
  have hmode := hp.mode
  cases hth : p.thread with
  | leaving d b => simp [hth] at hmode
  | _ => simp [Peer.locked, hth]

/-- As long as nobody leaves, no handler waits for the page mutex. -/
theorem LocalInv.underMutex {i : Node} {p : Peer Node} (hp : LocalInv i p)
    {c : CoreInfo Node × List (Msg Node)} {r : Peer Node × List (Msg Node)}
    (h : underMutex p c = some r) : r = ({ p with core := c.1 }, c.2) := by
  simp only [PageLock.underMutex, hp.unlocked, Bool.false_eq_true, if_false, Option.some.injEq] at h
  exact h.symm

/-- `unlock` of a node that holds the lock. -/
theorem move_unlock {i : Node} {p : Peer Node} (hp : LocalInv i p)
    (hpend : ∀ k, pendingAt i k i p ≤ 1)
    (hsafe : p.core.mode = .reading → p.core.haveToken = i → safeRelease i p i = true)
    {r : Peer Node × List (Msg Node)} (h : unlock i p = some r) : Move i p [] r.1 r.2 := by
  obtain ⟨c, thread, ctr⟩ := p
  cases thread with
  | returned k =>
    obtain ⟨x, hx, rfl⟩ := Option.map_eq_some_iff.mp h
    have hmode : c.mode = k.toStatus := hp.mode
    have hpred : c.predicate = false := by
      by_contra hc
      obtain ⟨k', hk'⟩ := hp.predicate (by simpa using hc)
      simp at hk'
    cases k with
    | write =>
      refine move_unlock_writing hmode (hp.writer (by simp [Peer.granted])) hpred hp.semaphore ?_ hx
      intro k'
      have hk' := hpend k'
      simp [pendingAt, pendingIn, Peer.serves, Peer.granted, Peer.waits] at hk'
      exact hk'
    | read => exact move_unlock_reading hmode hpred hp.semaphore (hsafe hmode) hx
  | _ => simp [unlock] at h

/-! ## Steps and runs -/

section Run

variable [Fintype Node] {s : Net Node}

/-- The requests that a message stands for are those of a waiting node. -/
theorem Inv.waits_of_pendingMsg (h : Inv s) {m : Msg Node} (hm : m ∈ s.msgs) {j : Node}
    {k : LockType} (hp : pendingMsg j k m = 1) : (s.node j).waits k = true := by
  have h1 := Network.le_weight_msg (pendingAt j k) (pendingMsg j k) s j hm
  have h2 := h.pending j k
  by_contra hw
  have h3 : 1 ≤ pendingAt j k j (s.node j) := by
    unfold pendingAt
    rw [if_pos ⟨rfl, hw⟩]
    omega
  omega

/-- Two nodes cannot both have the token. -/
theorem Inv.holds_unique (h : Inv s) {i j : Node} (hi : (s.node i).holds i = true)
    (hj : (s.node j).holds j = true) : i = j := by
  by_contra hij
  have h1 := Network.le_weight_pair tokenAt tokenMsg s hij
  have h2 := h.token
  simp only [tokenAt, hi, hj, Bool.toNat_true] at h1
  omega

/-- A writer has the token. -/
theorem Inv.holds_of_writer (h : Inv s) {i : Node} (hi : (s.node i).granted .write = true) :
    (s.node i).holds i = true := by
  have ht := (h.local_ i).writer hi
  simp only [Peer.granted, Bool.or_eq_true, Bool.and_eq_true, decide_eq_true_eq] at hi
  rcases hi with hi | hi <;> simp [Peer.holds, Peer.blocked, Peer.waits, ht, hi]

/-- While there is a writer, there is no reader, no `GET_LOCK(READ)` and no `UNLOCK` in flight. -/
theorem Inv.readers_of_writer (h : Inv s) {i : Node} (hi : (s.node i).granted .write = true) :
    s.weight readerAt readerMsg = 0 := by
  have hzero : ∀ j, recordedAt j (s.node j) = 0 := by
    intro j
    unfold recordedAt
    split
    · rename_i hserves
      simp only [Peer.serves, Bool.and_eq_true, Bool.not_eq_true'] at hserves
      have hij := h.holds_unique (h.holds_of_writer hi) hserves.1
      rw [hij] at hi
      exact absurd (hi.symm.trans hserves.2) (by simp)
    · rfl
  have h1 := h.readers
  have h2 : (s.weight recordedAt fun _ => 0) = 0 := by
    simp [Network.Net.weight, hzero]
  omega

/-- Two nodes that hold the lock at the same time are readers. -/
theorem Inv.readers_together (h : Inv s) {i j : Node} (hij : j ≠ i) {k k' : LockType}
    (hi : (s.node i).thread = .returned k) (hj : (s.node j).thread = .returned k') :
    k = .read ∧ k' = .read := by
  have hgranted : ∀ {a : Node} {m : LockType}, (s.node a).thread = .returned m →
      (s.node a).granted m = true := fun ha => by simp [Peer.granted, ha]
  -- a reader next to a writer would be a reader that is not recorded
  have hreader : ∀ {a b : Node}, (s.node a).thread = .returned .write →
      (s.node b).thread = .returned .read → False := by
    intro a b ha hb
    have h0 := h.readers_of_writer (hgranted ha)
    have h1 := Network.le_weight_node readerAt readerMsg s b
    simp only [readerAt, hgranted hb, Bool.toNat_true] at h1
    omega
  cases k with
  | read =>
    cases k' with
    | read => exact ⟨rfl, rfl⟩
    | write => exact absurd hi fun hi => hreader hj hi
  | write =>
    cases k' with
    | read => exact absurd hj fun hj => hreader hi hj
    | write =>
      exact absurd (h.holds_unique (h.holds_of_writer (hgranted hj))
        (h.holds_of_writer (hgranted hi))) hij

theorem inv_initNet (owner : Node) : Inv (initNet owner) where
  local_ := by
    intro i
    exact ⟨rfl, by simp [initNet, initCore], by simp [initNet, initCore, Peer.granted],
      by simp [initNet, Peer.waits], rfl⟩
  msgs := by simp [initNet]
  token := by
    have h : ∀ i, tokenAt i ((initNet owner).node i) = if i = owner then 1 else 0 := by
      intro i
      by_cases hi : owner = i
      · simp [initNet, initCore, tokenAt, Peer.holds, Peer.blocked, Peer.waits, hi]
      · simp [initNet, initCore, tokenAt, Peer.holds, hi, Ne.symm hi]
    simp only [Network.Net.weight, h]
    simp [initNet]
  pending := by
    intro j k
    simp [Network.Net.weight, initNet, initCore, pendingAt, pendingIn, Peer.waits]
  readers := by
    simp [Network.Net.weight, initNet, readerAt, Peer.granted]

/-- Every step that is in order keeps the invariant. -/
theorem inv_step {nodeList : Node → List Node} {s s' : Net Node} {e : Event Node} (h : Inv s)
    (hl : noLeave e = true) (hok : inOrder s e = true) (hstep : step nodeList s e = some s') :
    Inv s' := by
  rcases Network.step_cases hstep with ⟨i, a, r, rfl, hr, rfl⟩ | ⟨m, r, rfl, hm, hr, rfl⟩
  · have hp := h.local_ i
    refine inv_fire h (Network.perm_act _) ?_
    change act (nodeList i) i (s.node i) a = some r at hr
    cases a with
    | askLock m =>
      refine move_askLock hp (fun hm => ?_) hr
      subst hm
      simpa [inOrder] using hok
    | resume =>
      simp only [act] at hr
      split at hr
      · rename_i m hth
        split at hr
        · rename_i hpred
          cases hr
          exact move_resume hp hth hpred
        · cases hr
      · cases hr
    | semWake =>
      -- the semaphore is never posted
      simp only [act] at hr
      split at hr
      · simp [hp.semaphore] at hr
      · cases hr
    | unlock =>
      refine move_unlock hp (fun k => ?_) (fun hmode ht => ?_) hr
      · exact (Network.le_weight_node (pendingAt i k) (pendingMsg i k) s i).trans (h.pending i k)
      · simpa [inOrder, hmode, ht] using hok
    | leaveCore d => simp [noLeave] at hl
    | leaveFinish =>
      have hmode := hp.mode
      simp only [act, leaveFinish] at hr
      split at hr
      · rename_i d b hth
        simp [hth] at hmode
      · cases hr
  · have hp := h.local_ m.dest
    have hmsg := h.msgs m hm
    refine inv_fire h (Network.perm_deliver hm) ?_
    change handle m.dest (s.node m.dest) m = some r at hr
    cases m with
    | askLock d sender j k =>
      obtain rfl := hp.underMutex hr
      apply move_handleAskLock hp
      intro hd
      have hd' : d = j := hd
      subst hd'
      exact h.waits_of_pendingMsg hm (by simp [pendingMsg, Msg.dest])
    | getLock d sender j k =>
      obtain rfl := hp.underMutex hr
      exact move_handleGetLock hp rfl hmsg (h.waits_of_pendingMsg hm (by simp [pendingMsg, Msg.dest]))
    | unlock d sender j k =>
      obtain rfl := hp.underMutex hr
      refine move_handleUnlock hp ?_ ?_
      · by_contra hw
        have h0 := h.readers_of_writer (by simpa using hw)
        have h1 := Network.le_weight_msg readerAt readerMsg s d hm
        simp only [readerMsg] at h1
        omega
      · intro ht
        have ht' : (s.node d).core.haveToken = d := ht
        simpa [inOrder, ht', Msg.dest] using hok
    | _ => exact hmsg.elim

/-- In every run whose steps are in order, the invariant holds in every state. -/
theorem inv_run {nodeList : Node → List Node} {owner : Node} {es : List (Event Node)}
    (hrun : Network.run (step nodeList) (initNet owner) es = some s)
    (hok : Network.Meets (step nodeList) (fun s e => noLeave e && inOrder s e)
      (initNet owner) es) : Inv s := by
  refine Network.run_invariant (fun s e s' h hok hstep => ?_) (inv_initNet owner) hok hrun
  simp only [Bool.and_eq_true] at hok
  exact inv_step h hok.1 hok.2 hstep

/-- Reader/writer exclusion: in every run in which every hand-over is safe and no node in mode
`READING` calls `ask_lock(WRITE)`, while a node has returned from `ask_lock(WRITE)` and not yet
called `unlock`, no other node has returned from `ask_lock` without having called `unlock` since. -/
theorem writer_excludes_others {nodeList : Node → List Node} {owner : Node} {es : List (Event Node)}
    (hrun : Network.run (step nodeList) (initNet owner) es = some s)
    (hok : Network.Meets (step nodeList) (fun s e => noLeave e && inOrder s e)
      (initNet owner) es) {i j : Node} (hij : j ≠ i) (hi : (s.node i).thread = .returned .write)
    (k : LockType) : (s.node j).thread ≠ .returned k := by
  intro hj
  have h := inv_run hrun hok
  have hw : (s.node i).granted .write = true := by simp [Peer.granted, hi]
  have hk : (s.node j).granted k = true := by simp [Peer.granted, hj]
  cases k with
  | write => exact hij (h.holds_unique (h.holds_of_writer hk) (h.holds_of_writer hw))
  | read =>
    have h0 := h.readers_of_writer hw
    have h1 := Network.le_weight_node readerAt readerMsg s j
    simp only [readerAt, hk, Bool.toNat_true] at h1
    omega

end Run

/-! ## Runs of three nodes -/

/-- The node `a` has the token and reads, the node `b` is let in as a reader, and the node `c` asks
for `WRITE`; the node `c` is queued in front of the readers. -/
def overtakingRun (a b c : Node) : List (Event Node) :=
  [.act a (.askLock .read), .act b (.askLock .read), .act c (.askLock .write),
    .deliver (.askLock a b b .read), .deliver (.askLock a c c .write),
    .deliver (.getLock b a a .read), .act b .resume, .act a .unlock,
    .deliver (.getLock c a a .write), .act c .resume]

/-- When the node 0 stops reading, the node 2 gets the lock while the node 1 still reads. -/
theorem overtaking_breaks_exclusion :
    ∃ s, Network.run (step fun _ => []) (initNet 0) (overtakingRun (0 : Fin 3) 1 2) = some s ∧
      (∀ e ∈ overtakingRun (0 : Fin 3) 1 2, noLeave e = true) ∧
      (s.node 2).thread = .returned .write ∧ (s.node 1).thread = .returned .read := by
  refine ⟨_, rfl, by decide, by decide, by decide⟩

/-- The same requests without the reader. -/
def handOverRun (a b : Node) : List (Event Node) :=
  [.act a (.askLock .read), .act b (.askLock .write), .deliver (.askLock a b b .write),
    .act a .unlock, .deliver (.getLock b a a .write), .act b .resume]

theorem writer_excludes_others_handOver :
    ∃ s, Network.run (step fun _ => []) (initNet 0) (handOverRun (0 : Fin 3) 2) = some s ∧
      (s.node 2).thread = .returned .write ∧ (s.node 0).thread ≠ .returned .read := by
  have hrun : Network.run (step fun _ => []) (initNet 0) (handOverRun (0 : Fin 3) 2) = some _ := rfl
  refine ⟨_, hrun, by decide, ?_⟩
  exact writer_excludes_others hrun (by decide) (i := 2) (by decide) (by decide) .read

end PageLock
