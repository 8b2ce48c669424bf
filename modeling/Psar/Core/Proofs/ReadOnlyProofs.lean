import Psar.Core.ReadOnly
import Psar.Core.Proofs.PageLockProofs
import Psar.Library.Proofs.NetworkProofs

/-!
# Proofs: runs with readers only

Every step moves a reader on by one place: from its request to the `GET_LOCK` and the entry in the
list, from the `GET_LOCK` to the thread, from the thread to the `UNLOCK`, and from there out of the
list.
-/

namespace PageLock

variable {Node : Type} [DecidableEq Node] {o : Node}

/-! ## One step -/

/-- What the step `e` of the node `i` that consumes `ms` and sends `out` does, in a run with readers
only. -/
structure ReadMove (o i : Node) (e : Event Node) (p : Peer Node) (ms : List (Msg Node))
    (p' : Peer Node) (out : List (Msg Node)) : Prop where
  local_ : ReadLocal o i p'
  msgs : ∀ m ∈ out, ReadMsg o m
  waiting : ∀ j, j ≠ o → out.countP (Msg.asks j) + out.countP (Msg.letsIn j) +
      (if i = j then (p.waits .read).toNat else 0) =
    ms.countP (Msg.asks j) + ms.countP (Msg.letsIn j) +
      if i = j then (p'.waits .read).toNat else 0
  entries : ∀ j, j ≠ o → (if i = o then entriesOf j p'.core.request else 0) +
      (ms.countP (Msg.letsIn j) + ms.countP (Msg.releases j)) +
      (if i = j then (p.granted .read).toNat else 0) =
    (if i = o then entriesOf j p.core.request else 0) +
      (out.countP (Msg.letsIn j) + out.countP (Msg.releases j)) +
      if i = j then (p'.granted .read).toNat else 0
  granted : ∀ j, j ≠ o → (if i = j then (p'.granted .read).toNat else 0) + (unlockAt j e).toNat =
    (if i = j then (p.granted .read).toNat else 0) + (letInAt j e).toNat

theorem readInv_fire {s : Net Node} (h : ReadInv o s) {i : Node} {e : Event Node}
    {ms rest : List (Msg Node)}
    (hp : s.msgs.Perm (ms ++ rest)) {r : Peer Node × List (Msg Node)}
    (hm : ReadMove o i e (s.node i) ms r.1 r.2) : ReadInv o (s.fire i rest r) where
  local_ := Network.forall_node_fire h.local_ hm.local_
  msgs := Network.forall_msgs_fire h.msgs hp hm.msgs
  waiting := by
    intro j hj
    have h1 := Network.countP_fire (Msg.asks j) i hp r
    have h2 := Network.countP_fire (Msg.letsIn j) i hp r
    have h3 := Network.apply_fire (fun p => (p.waits .read).toNat) s i j rest r
    have h4 := hm.waiting j hj
    have h5 := h.waiting j hj
    omega
  entries := by
    intro j hj
    have h1 := Network.countP_fire (Msg.letsIn j) i hp r
    have h2 := Network.countP_fire (Msg.releases j) i hp r
    have h3 := Network.apply_fire (fun p => (p.granted .read).toNat) s i j rest r
    have h4 := Network.apply_fire (fun p => entriesOf j p.core.request) s i o rest r
    have h5 := hm.entries j hj
    have h6 := h.entries j hj
    omega

/-! ## Request lists -/

theorem entriesOf_cons (j : Node) (r : Request Node) (l : List (Request Node)) :
    entriesOf j (r :: l) = entriesOf j l + if r.who = j then 1 else 0 := by
  simp [entriesOf, List.countP_cons]

/-- Removing an entry of `fr` that is there. -/
theorem entriesOf_removeRequest {c : CoreInfo Node} {fr : Node} (h : 0 < entriesOf fr c.request)
    (j : Node) : entriesOf j (removeRequest c fr).request + (if fr = j then 1 else 0) =
      entriesOf j c.request := by
  show entriesOf j (c.request.eraseP fun r => r.who = fr) + _ = _
  revert h
  induction c.request with
  | nil =>
    intro h
    cases h
  | cons r l ih =>
    intro h
    by_cases hr : r.who = fr
    · rw [List.eraseP_cons_of_pos (by simpa using hr), entriesOf_cons, hr]
    · rw [List.eraseP_cons_of_neg (by simpa using hr), entriesOf_cons, entriesOf_cons]
      rw [entriesOf_cons, if_neg hr, Nat.add_zero] at h
      have hl := ih h
      omega

omit [DecidableEq Node] in
theorem findLastWriter_reads {c : CoreInfo Node} (h : ∀ r ∈ c.request, r.mode = .read) :
    findLastWriter c = none := by
  unfold findLastWriter
  rw [List.find?_eq_none]
  intro r hr
  rw [h r (List.mem_reverse.mp hr)]
  simp

/-- Without `WRITE` requests `handle_local_UNLOCK` only removes an entry. -/
theorem handleLocalUnlock_reads_only {i fr : Node} {c : CoreInfo Node}
    (h : ∀ r ∈ c.request, r.mode = .read) :
    handleLocalUnlock i c fr = (removeRequest c fr, []) := by
  apply handleLocalUnlock_keep
  intro q t hhead
  have hmem : ⟨.write, q⟩ ∈ (removeRequest c fr).request := by
    rw [hhead]
    exact List.mem_cons_self
  cases h _ (List.mem_of_mem_eraseP hmem)

/-! ## The steps of the owner -/

theorem readLocal_owner {p : Peer Node} : ReadLocal o o p ↔ OwnerLocal o p := by
  unfold ReadLocal
  rw [if_pos rfl]

theorem readLocal_reader {i : Node} (hi : i ≠ o) {p : Peer Node} :
    ReadLocal o i p ↔ ReaderLocal o i p := by
  unfold ReadLocal
  rw [if_neg hi]

/-- A step of the owner that leaves its list as it is, up to entries that the messages account for.
-/
theorem readMove_owner {e : Event Node} {p p' : Peer Node} {ms out : List (Msg Node)}
    (he : ∀ j, j ≠ o → unlockAt j e = false ∧ letInAt j e = false) (hp' : OwnerLocal o p')
    (hout : ∀ m ∈ out, ReadMsg o m)
    (hwaiting : ∀ j, j ≠ o → out.countP (Msg.asks j) + out.countP (Msg.letsIn j) =
      ms.countP (Msg.asks j) + ms.countP (Msg.letsIn j))
    (hentries : ∀ j, j ≠ o → entriesOf j p'.core.request +
        (ms.countP (Msg.letsIn j) + ms.countP (Msg.releases j)) =
      entriesOf j p.core.request + (out.countP (Msg.letsIn j) + out.countP (Msg.releases j))) :
    ReadMove o o e p ms p' out where
  local_ := readLocal_owner.mpr hp'
  msgs := hout
  waiting := by
    intro j hj
    rw [if_neg (Ne.symm hj), if_neg (Ne.symm hj)]
    exact hwaiting j hj
  entries := by
    intro j hj
    rw [if_neg (Ne.symm hj), if_neg (Ne.symm hj), if_pos rfl, if_pos rfl]
    exact hentries j hj
  granted := by
    intro j hj
    rw [if_neg (Ne.symm hj), if_neg (Ne.symm hj), (he j hj).1, (he j hj).2]

theorem readMove_owner_askLock {p : Peer Node} (hp : OwnerLocal o p)
    {r : Peer Node × List (Msg Node)} (hr : askLock o p .read = some r) :
    ReadMove o o (.act o (.askLock .read)) p [] r.1 r.2 := by
  obtain ⟨hthread, ⟨hmode, rfl⟩ | ⟨hmode, htoken, -, rfl⟩ | ⟨-, -, -, hm, -⟩ |
    ⟨-, htoken, -⟩ | ⟨-, htoken, -⟩⟩ := askLock_cases hr
  · have hth : p.thread = .returned .read := by
      rcases hp.thread with ⟨-, h⟩ | ⟨h, -⟩
      · exact absurd h hmode
      · exact h
    have hheld : p.thread.held .read = .read := by
      rw [hth]
      rfl
    rw [hheld]
    apply readMove_owner
    · intro j hj
      simp [unlockAt, letInAt]
    · refine ⟨hp.token, Or.inr ⟨rfl, ?_⟩, hp.reads, hp.own⟩
      rcases hp.thread with ⟨h, -⟩ | ⟨-, h⟩
      · rw [hth] at h
        cases h
      · exact h
    · simp
    · simp
    · simp
  · have hown := hp.own
    rw [hmode, if_neg (by simp)] at hown
    apply readMove_owner
    · intro j hj
      simp [unlockAt, letInAt]
    · refine ⟨htoken, Or.inr ⟨rfl, rfl⟩, ?_, ?_⟩
      · intro e he
        rcases List.mem_cons.mp he with rfl | he
        · rfl
        · exact hp.reads e he
      · show entriesOf o (⟨.read, o⟩ :: p.core.request) = 1
        rw [entriesOf_cons, hown, if_pos rfl]
    · simp
    · simp
    · intro j hj
      show entriesOf j (⟨.read, o⟩ :: p.core.request) + _ = _
      rw [entriesOf_cons, if_neg (Ne.symm hj)]
      simp
  · cases hm
  · exact absurd hp.token htoken
  · exact absurd hp.token htoken

theorem readMove_owner_unlock {p : Peer Node} (hp : OwnerLocal o p)
    {r : Peer Node × List (Msg Node)} (hr : unlock o p = some r) :
    ReadMove o o (.act o .unlock) p [] r.1 r.2 := by
  obtain ⟨k, x, hth, hx, rfl⟩ := unlock_eq_some hr
  have hmode : p.core.mode = .reading := by
    rcases hp.thread with ⟨h, -⟩ | ⟨-, h⟩
    · rw [h] at hth
      cases hth
    · exact h
  have hown := hp.own
  rw [hmode, if_pos rfl] at hown
  have hentry : 0 < entriesOf o p.core.request := by omega
  have hremove := entriesOf_removeRequest hentry
  simp only [unlockInternal, hmode, if_pos hp.token, handleLocalUnlock_reads_only hp.reads,
    Option.some.injEq] at hx
  subst hx
  apply readMove_owner
  · intro j hj
    simp [unlockAt, letInAt, Ne.symm hj]
  · refine ⟨hp.token, Or.inl ⟨rfl, rfl⟩, ?_, ?_⟩
    · intro e he
      exact hp.reads e (List.mem_of_mem_eraseP he)
    · have h := hremove o
      rw [if_pos rfl, hown] at h
      show entriesOf o (removeRequest p.core o).request = 0
      omega
  · simp
  · simp
  · intro j hj
    have h := hremove j
    rw [if_neg (Ne.symm hj)] at h
    show entriesOf j (removeRequest p.core o).request + 0 = entriesOf j p.core.request + 0
    omega

/-- The owner lets a reader in. -/
theorem readMove_owner_handleAskLock {p : Peer Node} (hp : OwnerLocal o p) {sender j : Node}
    (hj : j ≠ o) :
    ReadMove o o (.deliver (.askLock o sender j .read)) p [.askLock o sender j .read]
      { p with core := (handleAskLock o p.core j .read).1 } (handleAskLock o p.core j .read).2 := by
  have heq : handleAskLock o p.core j .read =
      (addRequest p.core j .read, [.getLock j o o .read]) := by
    rcases hp.thread with ⟨-, hmode⟩ | ⟨-, hmode⟩ <;>
      simp [handleAskLock, findLastWriter_reads hp.reads, hp.token, hmode]
  rw [heq]
  apply readMove_owner
  · intro j hj
    simp [unlockAt, letInAt, Msg.letsIn]
  · refine ⟨hp.token, hp.thread, ?_, ?_⟩
    · intro e he
      rcases List.mem_cons.mp he with rfl | he
      · rfl
      · exact hp.reads e he
    · show entriesOf o (⟨.read, j⟩ :: p.core.request) = _
      rw [entriesOf_cons, if_neg hj]
      exact hp.own
  · intro m hm
    rw [List.mem_singleton.mp hm]
    exact ⟨hj, rfl, rfl⟩
  · intro j' _
    simp [Msg.asks, Msg.letsIn]
  · intro j' _
    show entriesOf j' (⟨.read, j⟩ :: p.core.request) + _ = _
    rw [entriesOf_cons]
    simp [Msg.letsIn, Msg.releases, List.countP_cons]

/-- The owner takes the registration of a reader away. -/
theorem readMove_owner_handleUnlock {p : Peer Node} (hp : OwnerLocal o p) {sender initiator : Node}
    {k : LockType} (hsender : sender ≠ o) (hentry : 0 < entriesOf sender p.core.request) :
    ReadMove o o (.deliver (.unlock o sender initiator k)) p [.unlock o sender initiator k]
      { p with core := (handleUnlock o p.core sender initiator k).1 }
      (handleUnlock o p.core sender initiator k).2 := by
  have hremove := entriesOf_removeRequest hentry
  rw [handleUnlock, if_neg (not_not.mpr hp.token), handleLocalUnlock_reads_only hp.reads]
  apply readMove_owner
  · intro j hj
    simp [unlockAt, letInAt, Msg.letsIn]
  · refine ⟨hp.token, hp.thread, ?_, ?_⟩
    · intro e he
      exact hp.reads e (List.mem_of_mem_eraseP he)
    · have h := hremove o
      rw [if_neg hsender] at h
      exact h.trans hp.own
  · simp
  · intro j _
    simp [Msg.asks, Msg.letsIn]
  · intro j _
    have h := hremove j
    show entriesOf j (removeRequest p.core sender).request + _ = _
    simp only [Msg.letsIn, Msg.releases, List.countP_cons, List.countP_nil, decide_eq_true_eq]
    simpa using h

/-! ## The steps of the readers -/

section Reader

variable {i : Node}

/-- A step of a reader `i`, which has no list. -/
theorem readMove_reader (hi : i ≠ o) {e : Event Node} {p p' : Peer Node} {ms out : List (Msg Node)}
    (hp' : ReaderLocal o i p') (hout : ∀ m ∈ out, ReadMsg o m)
    (hwaiting : ∀ j, j ≠ o → out.countP (Msg.asks j) + out.countP (Msg.letsIn j) +
        (if i = j then (p.waits .read).toNat else 0) =
      ms.countP (Msg.asks j) + ms.countP (Msg.letsIn j) +
        if i = j then (p'.waits .read).toNat else 0)
    (hentries : ∀ j, j ≠ o → ms.countP (Msg.letsIn j) + ms.countP (Msg.releases j) +
        (if i = j then (p.granted .read).toNat else 0) =
      out.countP (Msg.letsIn j) + out.countP (Msg.releases j) +
        if i = j then (p'.granted .read).toNat else 0)
    (hgranted : ∀ j, j ≠ o → (if i = j then (p'.granted .read).toNat else 0) +
        (unlockAt j e).toNat =
      (if i = j then (p.granted .read).toNat else 0) + (letInAt j e).toNat) :
    ReadMove o i e p ms p' out where
  local_ := (readLocal_reader hi).mpr hp'
  msgs := hout
  waiting := hwaiting
  entries := by
    intro j hj
    rw [if_neg hi, if_neg hi, Nat.zero_add, Nat.zero_add]
    exact hentries j hj
  granted := hgranted

theorem readMove_reader_askLock (hi : i ≠ o) {p : Peer Node} (hp : ReaderLocal o i p)
    {r : Peer Node × List (Msg Node)} (hr : askLock i p .read = some r) :
    ReadMove o i (.act i (.askLock .read)) p [] r.1 r.2 := by
  obtain ⟨hthread, ⟨hmode, rfl⟩ | ⟨-, htoken, -⟩ | ⟨-, htoken, -⟩ |
    ⟨hmode, -, hpred, -⟩ | ⟨hmode, -, hpred, rfl⟩⟩ := askLock_cases hr
  · -- the page is already locked
    rcases hp.thread with ⟨-, h⟩ | ⟨h, -⟩ | ⟨h, hreading⟩
    · exact absurd h hmode
    · rcases hthread with h' | ⟨_, h'⟩ <;> rw [h] at h' <;> cases h'
    · have hheld : p.thread.held .read = .read := by
        rw [h]
        rfl
      have hp' : ({ p with thread := .returned (p.thread.held .read) } : Peer Node) = p := by
        rw [hheld, ← h]
      rw [hp']
      exact readMove_reader hi hp (by simp) (fun _ _ => rfl) (fun _ _ => rfl) (fun _ _ => rfl)
  · exact absurd htoken hp.token
  · exact absurd htoken hp.token
  · have h := hp.predicate hpred
    rcases hthread with h' | ⟨_, h'⟩ <;> rw [h] at h' <;> cases h'
  · have hidle : p.thread = .idle := by
      rcases hp.thread with ⟨h, -⟩ | ⟨-, h⟩ | ⟨-, h⟩
      · exact h
      · rw [hmode] at h
        cases h
      · rw [hmode] at h
        cases h
    apply readMove_reader hi
    · refine ⟨hp.token, hp.request, Or.inr (Or.inl ⟨rfl, rfl⟩), fun _ => rfl, ?_⟩
      intro hgranted
      simp [Peer.granted, hpred] at hgranted
    · intro m hm
      rw [List.mem_singleton.mp hm]
      exact ⟨hi, rfl⟩
    · intro j _
      simp [Msg.asks, Msg.letsIn, Peer.waits, hidle, hpred, List.countP_cons]
    · intro j _
      simp [Msg.letsIn, Msg.releases, Peer.granted, hidle, hpred]
    · intro j _
      simp [unlockAt, letInAt, Peer.granted, hidle, hpred]

theorem readMove_reader_resume (hi : i ≠ o) {p : Peer Node} (hp : ReaderLocal o i p)
    {k : LockType} (hth : p.thread = .condWait k) (hpred : p.core.predicate = true) :
    ReadMove o i (.act i .resume) p []
      { p with core := { p.core with predicate := false }, thread := .returned k } [] := by
  rcases hp.thread with ⟨h, -⟩ | ⟨h, hmode⟩ | ⟨h, -⟩ <;> rw [h] at hth <;> cases hth
  have howner : p.core.haveToken = o := hp.granted (by simp [Peer.granted, h, hpred])
  apply readMove_reader hi
  · exact ⟨hp.token, hp.request, Or.inr (Or.inr ⟨rfl, hmode⟩), (fun hc => by cases hc),
      fun _ => howner⟩
  · simp
  · intro j _
    simp [Peer.waits, h, hpred]
  · intro j _
    simp [Peer.granted, h, hpred]
  · intro j _
    simp [unlockAt, letInAt, Peer.granted, h, hpred]

theorem readMove_reader_unlock (hi : i ≠ o) {p : Peer Node} (hp : ReaderLocal o i p)
    {r : Peer Node × List (Msg Node)} (hr : unlock i p = some r) :
    ReadMove o i (.act i .unlock) p [] r.1 r.2 := by
  obtain ⟨k, x, hth, hx, rfl⟩ := unlock_eq_some hr
  rcases hp.thread with ⟨h, -⟩ | ⟨h, -⟩ | ⟨h, hmode⟩ <;> rw [h] at hth <;> cases hth
  have howner : p.core.haveToken = o := hp.granted (by simp [Peer.granted, h])
  have hpred : p.core.predicate = false := by
    by_contra hne
    have h' := hp.predicate (by simpa using hne)
    rw [h] at h'
    cases h'
  simp only [unlockInternal, hmode, if_neg hp.token, Option.some.injEq] at hx
  subst hx
  apply readMove_reader hi
  · refine ⟨hp.token, hp.request, Or.inl ⟨rfl, rfl⟩, ?_, ?_⟩
    · intro hc
      change p.core.predicate = true at hc
      rw [hpred] at hc
      cases hc
    · intro hgranted
      simp [Peer.granted] at hgranted
  · intro m hm
    rw [List.mem_singleton.mp hm]
    exact ⟨howner, hi⟩
  · intro j _
    simp [Msg.asks, Msg.letsIn, Peer.waits, h]
  · intro j _
    simp [Msg.letsIn, Msg.releases, Peer.granted, h, List.countP_cons]
  · intro j _
    by_cases hij : i = j <;> simp [unlockAt, letInAt, Peer.granted, h, hij]

/-- A reader passes a request on. -/
theorem readMove_reader_handleAskLock (hi : i ≠ o) {p : Peer Node} (hp : ReaderLocal o i p)
    {sender j : Node} (hj : j ≠ o) :
    ReadMove o i (.deliver (.askLock i sender j .read)) p [.askLock i sender j .read]
      { p with core := (handleAskLock i p.core j .read).1 } (handleAskLock i p.core j .read).2 := by
  have heq : handleAskLock i p.core j .read =
      (p.core, [.askLock p.core.haveToken i j .read]) := by
    simp [handleAskLock, findLastWriter, hp.request, hp.token]
  rw [heq]
  apply readMove_reader hi hp
  · intro m hm
    rw [List.mem_singleton.mp hm]
    exact ⟨hj, rfl⟩
  · intro j' _
    simp [Msg.asks, Msg.letsIn, List.countP_cons]
  · intro j' _
    simp [Msg.letsIn, Msg.releases]
  · intro j' _
    simp [unlockAt, letInAt, Msg.letsIn]

/-- A waiting reader is let in. -/
theorem readMove_reader_handleGetLock (hi : i ≠ o) {p : Peer Node} (hp : ReaderLocal o i p)
    {initiator : Node} (hwaits : p.waits .read = true) :
    ReadMove o i (.deliver (.getLock i o initiator .read)) p [.getLock i o initiator .read]
      { p with core := handleGetLock i p.core o .read } [] := by
  simp only [Peer.waits, Bool.and_eq_true, decide_eq_true_eq, Bool.not_eq_true'] at hwaits
  obtain ⟨hth, hpred⟩ := hwaits
  have hmode : p.core.mode = .reading := by
    rcases hp.thread with ⟨h, -⟩ | ⟨-, h⟩ | ⟨h, -⟩
    · rw [h] at hth
      cases hth
    · exact h
    · rw [h] at hth
      cases hth
  have heq : handleGetLock i p.core o .read =
      { p.core with haveToken := o, predicate := true } := by
    simp [handleGetLock, hmode]
  rw [heq]
  apply readMove_reader hi
  · exact ⟨Ne.symm hi, hp.request, Or.inr (Or.inl ⟨hth, hmode⟩), fun _ => hth, fun _ => rfl⟩
  · simp
  · intro j _
    simp [Msg.asks, Msg.letsIn, Peer.waits, hth, hpred, List.countP_cons]
  · intro j _
    simp [Msg.letsIn, Msg.releases, Peer.granted, hth, hpred, List.countP_cons]
  · intro j _
    by_cases hij : i = j <;> simp [unlockAt, letInAt, Msg.letsIn, Peer.granted, hth, hpred, hij]

end Reader

/-! ## Runs -/

section Run

variable {nodeList : Node → List Node} {s s' : Net Node}

theorem ReadLocal.threads {i : Node} {p : Peer Node} (h : ReadLocal o i p) :
    p.thread = .idle ∨ p.thread = .condWait .read ∨ p.thread = .returned .read := by
  unfold ReadLocal at h
  split_ifs at h
  · rcases h.thread with ⟨hth, -⟩ | ⟨hth, -⟩
    · exact Or.inl hth
    · exact Or.inr (Or.inr hth)
  · rcases h.thread with ⟨hth, -⟩ | ⟨hth, -⟩ | ⟨hth, -⟩
    · exact Or.inl hth
    · exact Or.inr (Or.inl hth)
    · exact Or.inr (Or.inr hth)

theorem ReadInv.owner (h : ReadInv o s) : OwnerLocal o (s.node o) :=
  readLocal_owner.mp (h.local_ o)

theorem ReadInv.reader (h : ReadInv o s) {i : Node} (hi : i ≠ o) : ReaderLocal o i (s.node i) :=
  (readLocal_reader hi).mp (h.local_ i)

/-- A step is a step of one node that it accounts for. -/
theorem readMove_step {e : Event Node} (h : ReadInv o s) (he : readOnly e = true)
    (hstep : step nodeList s e = some s') :
    ∃ i ms rest r, s.msgs.Perm (ms ++ rest) ∧ s' = s.fire i rest r ∧
      ReadMove o i e (s.node i) ms r.1 r.2 := by
  rcases Network.step_cases hstep with ⟨i, a, r, rfl, hr, rfl⟩ | ⟨m, r, rfl, hm, hr, rfl⟩
  · refine ⟨i, [], s.msgs, r, Network.perm_act _, rfl, ?_⟩
    change act (nodeList i) i (s.node i) a = some r at hr
    cases a with
    | askLock m =>
      cases m with
      | read =>
        by_cases hi : i = o
        · subst hi
          exact readMove_owner_askLock h.owner hr
        · exact readMove_reader_askLock hi (h.reader hi) hr
      | write => cases he
    | resume =>
      obtain ⟨k, hth, hpred, rfl⟩ := resume_eq_some hr
      by_cases hi : i = o
      · subst hi
        rcases h.owner.thread with ⟨hth', -⟩ | ⟨hth', -⟩ <;> rw [hth] at hth' <;> cases hth'
      · exact readMove_reader_resume hi (h.reader hi) hth hpred
    | semWake =>
      obtain ⟨hth, -⟩ := semWake_eq_some hr
      rcases (h.local_ i).threads with hth' | hth' | hth' <;> rw [hth] at hth' <;> cases hth'
    | unlock =>
      by_cases hi : i = o
      · subst hi
        exact readMove_owner_unlock h.owner hr
      · exact readMove_reader_unlock hi (h.reader hi) hr
    | leaveCore d => cases he
    | leaveFinish =>
      obtain ⟨d, b, hth, -⟩ := leaveFinish_eq_some hr
      rcases (h.local_ i).threads with hth' | hth' | hth' <;> rw [hth] at hth' <;> cases hth'
  · have hmsg := h.msgs m hm
    refine ⟨m.dest, [m], s.msgs.erase m, r, Network.perm_deliver hm, rfl, ?_⟩
    change handle m.dest (s.node m.dest) m = some r at hr
    cases m with
    | askLock d sender j k =>
      obtain ⟨hj, rfl⟩ := hmsg
      obtain ⟨-, rfl⟩ := underMutex_eq_some hr
      show ReadMove o d _ (s.node d) _ _ _
      by_cases hd : d = o
      · subst hd
        exact readMove_owner_handleAskLock h.owner hj
      · exact readMove_reader_handleAskLock hd (h.reader hd) hj
    | getLock j sender initiator k =>
      obtain ⟨hj, rfl, rfl⟩ := hmsg
      obtain ⟨-, rfl⟩ := underMutex_eq_some hr
      -- the reader waits as long as its answer is in flight
      have hone : 0 < s.msgs.countP (Msg.letsIn j) :=
        List.countP_pos_iff.mpr ⟨_, hm, by simp [Msg.letsIn]⟩
      have hwaits : (s.node j).waits .read = true := by
        have hw := h.waiting j hj
        by_contra hne
        rw [Bool.not_eq_true] at hne
        rw [hne, Bool.toNat_false] at hw
        omega
      exact readMove_reader_handleGetLock hj (h.reader hj) hwaits
    | unlock d sender initiator k =>
      obtain ⟨rfl, hsender⟩ := hmsg
      obtain ⟨-, rfl⟩ := underMutex_eq_some hr
      have hone : 0 < s.msgs.countP (Msg.releases sender) :=
        List.countP_pos_iff.mpr ⟨_, hm, by simp [Msg.releases]⟩
      have hentries := h.entries sender hsender
      exact readMove_owner_handleUnlock h.owner hsender (by
        show 0 < entriesOf sender (s.node d).core.request
        omega)
    | _ => exact hmsg.elim

theorem readInv_pointerNet {father : Node → Node}
    (hroot : Pointers.Root father (fun _ => True) o) : ReadInv o (pointerNet father) where
  local_ := by
    intro i
    by_cases hi : i = o
    · subst hi
      exact readLocal_owner.mpr ⟨hroot.self, Or.inl ⟨rfl, rfl⟩, by simp [pointerNet, initCore], rfl⟩
    · refine (readLocal_reader hi).mpr ⟨?_, rfl, Or.inl ⟨rfl, rfl⟩, ?_, ?_⟩
      · intro hself
        exact hi (hroot.unique i trivial hself)
      · simp [pointerNet, initCore]
      · simp [pointerNet, Peer.granted]
  msgs := by simp [pointerNet]
  waiting := by
    intro j _
    simp [pointerNet, Peer.waits]
  entries := by
    intro j _
    simp [pointerNet, initCore, entriesOf, Peer.granted]

theorem readInv_step {e : Event Node} (h : ReadInv o s) (he : readOnly e = true)
    (hstep : step nodeList s e = some s') : ReadInv o s' := by
  obtain ⟨i, ms, rest, r, hp, rfl, hm⟩ := readMove_step h he hstep
  exact readInv_fire h hp hm

/-- The lock is granted to a node exactly while it has handled one `GET_LOCK(READ)` more than it has
called `unlock`. -/
theorem granted_step {e : Event Node} (h : ReadInv o s) (he : readOnly e = true)
    (hstep : step nodeList s e = some s') {j : Node} (hj : j ≠ o) :
    ((s'.node j).granted .read).toNat + (unlockAt j e).toNat =
      ((s.node j).granted .read).toNat + (letInAt j e).toNat := by
  obtain ⟨i, ms, rest, r, hp, rfl, hm⟩ := readMove_step h he hstep
  have h1 := hm.granted j hj
  have h2 := Network.apply_fire (fun p => (p.granted .read).toNat) s i j rest r
  omega

/-- Readers only: in every run in which every `ask_lock` is `ask_lock(READ)`, from pointers that
lead to `o`, the node `o` stays the only one that has the token; every other node has as many
entries in its list as there are `GET_LOCK(READ)` to it and `UNLOCK` from it in flight, and one more
while the lock is granted to it, that is, while it has handled one `GET_LOCK(READ)` more than it has
called `unlock`; and `o` has an entry of its own exactly while it is `READING`. -/
theorem readers_registered {father : Node → Node}
    (hroot : Pointers.Root father (fun _ => True) o) {es : List (Event Node)}
    (hrun : Network.run (step nodeList) (pointerNet father) es = some s)
    (hes : ∀ e ∈ es, readOnly e = true) :
    (∀ i, (s.node i).core.haveToken = i ↔ i = o) ∧
    (∀ j, j ≠ o → entriesOf j (s.node o).core.request =
        s.msgs.countP (Msg.letsIn j) + s.msgs.countP (Msg.releases j) +
          ((s.node j).granted .read).toNat ∧
      es.countP (letInAt j) = es.countP (unlockAt j) + ((s.node j).granted .read).toNat) ∧
    entriesOf o (s.node o).core.request =
      if (s.node o).core.mode = .reading then 1 else 0 := by
  have hinit := readInv_pointerNet hroot
  have h : ReadInv o s ∧ ∀ j, j ≠ o →
      es.countP (letInAt j) = es.countP (unlockAt j) + ((s.node j).granted .read).toNat := by
    refine Network.run_history (R := fun s es => ReadInv o s ∧ ∀ j, j ≠ o →
      es.countP (letInAt j) = es.countP (unlockAt j) + ((s.node j).granted .read).toNat)
      ?_ ?_ (Network.meets_of_forall hes _) hrun
    · rintro s es e s' ⟨h, hcount⟩ he hstep
      refine ⟨readInv_step h he hstep, ?_⟩
      intro j hj
      have h1 := granted_step h he hstep hj
      have h2 := hcount j hj
      rw [List.countP_append, List.countP_append, List.countP_singleton, List.countP_singleton]
      cases hu : unlockAt j e <;> cases hg : letInAt j e <;> simp [hu, hg] at h1 ⊢ <;> omega
    · refine ⟨hinit, ?_⟩
      intro j _
      simp [pointerNet, Peer.granted]
  obtain ⟨h, hcount⟩ := h
  refine ⟨?_, fun j hj => ⟨h.entries j hj, hcount j hj⟩, h.owner.own⟩
  intro i
  constructor
  · intro hself
    by_contra hi
    exact (h.reader hi).token hself
  · rintro rfl
    exact h.owner.token

end Run

/-- The pointers lead from the node `c` over the node `b` to the node `a`. -/
def chain (a b c n : Node) : Node := if n = c then b else a

theorem chain_root : Pointers.Root (chain (0 : Fin 3) 1 2) (fun _ => True) 0 where
  mem := trivial
  self := rfl
  unique := by decide
  leads := by
    intro a _
    refine ⟨2, ?_⟩
    revert a
    decide

/-- The node `c` reads twice, and its second `ASK_LOCK` overtakes its `UNLOCK`. -/
def readAgainRun (a b c : Node) : List (Event Node) :=
  [.act c (.askLock .read), .deliver (.askLock b c c .read), .deliver (.askLock a b c .read),
    .deliver (.getLock c a a .read), .act c .resume, .act c .unlock, .act c (.askLock .read),
    .deliver (.askLock a c c .read)]

theorem readers_registered_readAgainRun :
    ∃ s, Network.run (step fun _ => []) (pointerNet (chain (0 : Fin 3) 1 2)) (readAgainRun 0 1 2) =
        some s ∧
      entriesOf 2 (s.node 0).core.request = 2 ∧ s.msgs.countP (Msg.letsIn 2) = 1 ∧
      s.msgs.countP (Msg.releases 2) = 1 := by
  have hrun : Network.run (step fun _ => []) (pointerNet (chain (0 : Fin 3) 1 2))
      (readAgainRun 0 1 2) = some _ := rfl
  have h := readers_registered chain_root hrun (by decide)
  have hentries := (h.2.1 2 (by decide)).1
  exact ⟨_, hrun, hentries.trans (by decide), by decide, by decide⟩

end PageLock
