import Psar.Core.Forwarding
import Psar.Core.Proofs.ReadOnlyProofs
import Psar.Library.Proofs.PointersProofs

/-!
# Proofs: forwarding an `ASK_LOCK`

As long as every request for `WRITE` is queued behind a writer at the same node, the pointers go
down and the way of a message ends. The first request for `WRITE` that is not queued so makes a node
point to the initiator, which points back to it.
-/

namespace PageLock

variable {Node : Type} [DecidableEq Node] {height : Node → ℕ} {i : Node}

/-! ## The last writer -/

omit [DecidableEq Node] in
theorem findLastWriter_eq_none_iff {c : CoreInfo Node} :
    findLastWriter c = none ↔ ∀ r ∈ c.request, r.mode = .read := by
  constructor
  · intro h r hr
    have hnot := List.find?_eq_none.mp h r (List.mem_reverse.mpr hr)
    cases hmode : r.mode with
    | read => rfl
    | write => simp [hmode] at hnot
  · exact findLastWriter_reads

omit [DecidableEq Node] in
/-- A request that is added at the head does not replace the last writer. -/
theorem findLastWriter_cons {c : CoreInfo Node} {w : Request Node} (h : findLastWriter c = some w)
    (r : Request Node) : findLastWriter { c with request := r :: c.request } = some w := by
  unfold findLastWriter at h ⊢
  rw [List.reverse_cons, List.find?_append, h]
  rfl

omit [DecidableEq Node] in
theorem findLastWriter_cons_of_none {c : CoreInfo Node} (h : findLastWriter c = none)
    (r : Request Node) : findLastWriter { c with request := r :: c.request } =
      if r.mode = .write then some r else none := by
  unfold findLastWriter at h ⊢
  rw [List.reverse_cons, List.find?_append, h]
  cases hr : r.mode <;> simp [hr]

omit [DecidableEq Node] in
/-- Without its head, the list has the same last writer, unless the head was the only writer. -/
theorem findLastWriter_tail {c : CoreInfo Node} {r : Request Node} {t : List (Request Node)}
    (h : c.request = r :: t) {w : Request Node}
    (hw : findLastWriter { c with request := t } = some w) : findLastWriter c = some w := by
  have heq : c = { c with request := r :: t } := by rw [← h]
  rw [heq]
  exact findLastWriter_cons hw r

/-- Removing an entry of another node does not replace the last writer. -/
theorem findLastWriter_removeRequest {c : CoreInfo Node} {fr : Node} {w : Request Node}
    (hw : findLastWriter c = some w) (hfr : w.who ≠ fr) :
    findLastWriter (removeRequest c fr) = some w := by
  have hlist : ∀ l : List (Request Node), (l.reverse.find? fun r => r.mode = .write) = some w →
      ((l.eraseP fun r => r.who = fr).reverse.find? fun r => r.mode = .write) = some w := by
    intro l
    induction l with
    | nil => exact id
    | cons r t ih =>
      intro h
      rw [List.reverse_cons, List.find?_append] at h
      cases ht : t.reverse.find? fun r => r.mode = .write with
      | some w' =>
        rw [ht] at h
        cases h
        by_cases hr : r.who = fr
        · rw [List.eraseP_cons_of_pos (by simpa using hr)]
          exact ht
        · rw [List.eraseP_cons_of_neg (by simpa using hr), List.reverse_cons, List.find?_append,
            ih ht]
          rfl
      | none =>
        -- the head is the only writer
        rw [ht, Option.none_or] at h
        have hwr : w = r := List.mem_singleton.mp (List.mem_of_find?_eq_some h)
        rw [List.eraseP_cons_of_neg (by simpa [← hwr] using hfr), List.reverse_cons,
          List.find?_append, h, List.find?_eq_none.mpr, Option.none_or]
        intro a ha
        exact List.find?_eq_none.mp ht a
          (List.mem_reverse.mpr (List.mem_of_mem_eraseP (List.mem_reverse.mp ha)))
  exact hlist c.request hw

theorem findLastWriter_removeRequest_none {c : CoreInfo Node} {fr : Node}
    (h : findLastWriter c = none) : findLastWriter (removeRequest c fr) = none := by
  rw [findLastWriter_eq_none_iff] at h ⊢
  intro r hr
  exact h r (List.mem_of_mem_eraseP hr)

/-! ## The state of one node -/

theorem blocked_iff {p : Peer Node} :
    p.blocked = true ↔ (∃ k, p.thread = .condWait k) ∧ p.core.predicate = false := by
  unfold Peer.blocked Peer.waits
  constructor
  · intro h
    simp only [Bool.or_eq_true, Bool.and_eq_true, decide_eq_true_eq, Bool.not_eq_true'] at h
    rcases h with ⟨hth, hpred⟩ | ⟨hth, hpred⟩
    · exact ⟨⟨_, hth⟩, hpred⟩
    · exact ⟨⟨_, hth⟩, hpred⟩
  · rintro ⟨⟨k, hth⟩, hpred⟩
    cases k <;> simp [hth, hpred]

theorem blocked_eq_false {p : Peer Node} (h : ∀ k, p.thread ≠ .condWait k) : p.blocked = false := by
  rw [← Bool.not_eq_true, blocked_iff]
  rintro ⟨⟨k, hth⟩, -⟩
  exact h k hth

/-- A node whose thread does not wait at the semaphore has no `WRITE` entries. -/
theorem ForwardLocal.noWriter {p : Peer Node} (hp : ForwardLocal height i p)
    (hth : p.thread ≠ .semWait) : findLastWriter p.core = none := by
  cases h : findLastWriter p.core with
  | none => rfl
  | some w => exact absurd (hp.writer w h).2 hth

/-- A blocked node has no list. -/
theorem ForwardLocal.list_of_blocked {p : Peer Node} (hp : ForwardLocal height i p)
    (hblocked : p.blocked = true) : p.core.request = [] := by
  by_contra hne
  obtain ⟨⟨k, hth⟩, -⟩ := blocked_iff.mp hblocked
  rcases hp.list hne with h | h
  · exact hp.blocked hblocked h
  · rw [hth] at h
    cases h

theorem count_write_of_noWriter {c : CoreInfo Node} (h : findLastWriter c = none) (j : Node) :
    c.request.count ⟨.write, j⟩ = 0 := by
  rw [List.count_eq_zero]
  intro hmem
  cases findLastWriter_eq_none_iff.mp h _ hmem

/-- Without writers, the unserved entries are the `READ` entries of a node that writes. -/
theorem unserved_of_noWriter {p : Peer Node} (h : findLastWriter p.core = none) (j : Node) :
    unserved j i p =
      if p.core.mode = .writing ∧ p.thread ≠ .semWait then p.core.request.count ⟨.read, j⟩
      else 0 := by
  unfold unserved
  rw [count_write_of_noWriter h j, ite_self, Nat.add_zero]

theorem claimAt_of_empty {p : Peer Node} (h : p.core.request = []) (j : Node) :
    claimAt j i p = if i = j ∧ p.blocked = false then 1 else 0 := by
  simp [claimAt, unserved, h]

/-- The `GET_LOCK` that a writer sends when it releases the lock. -/
theorem sum_claimMsg_getLock {l : List (Request Node)} (h : ∀ r ∈ l, r.mode = .read) (j : Node) :
    ((l.map fun r => Msg.getLock r.who i i .read).map (claimMsg j)).sum = l.count ⟨.read, j⟩ := by
  induction l with
  | nil => rfl
  | cons r t ih =>
    obtain ⟨mode, who⟩ := r
    cases h _ List.mem_cons_self
    rw [List.map_cons, List.map_cons, List.sum_cons, ih fun r hr => h r (List.mem_cons_of_mem _ hr),
      List.count_cons, Nat.add_comm]
    simp [claimMsg]

/-- A node that is not blocked has no unserved entry of its own. -/
theorem unserved_self_le (p : Peer Node) : unserved i i p + (if p.blocked = false then 1 else 0) =
    claimAt i i p := by
  simp [claimAt]

/-! ## One step -/

/-- What a step of the node `i` that consumes `ms` and sends `out` does, as long as every request
for `WRITE` is queued. -/
structure ForwardMove (height : Node → ℕ) (i : Node) (p : Peer Node) (ms : List (Msg Node))
    (p' : Peer Node) (out : List (Msg Node)) : Prop where
  local_ : ForwardLocal height i p'
  msgs : ∀ m ∈ out, ForwardMsg height m
  asked : ∀ d sender j, .askLock d sender j .write ∈ out → j = i ∧ p'.core.haveToken = d
  keeps : p'.core.haveToken = p.core.haveToken ∨
    1 ≤ (if p.blocked = false then 1 else 0) + (ms.map (claimMsg i)).sum
  claims : ∀ j, claimAt j i p' + (out.map (claimMsg j)).sum ≤
    claimAt j i p + (ms.map (claimMsg j)).sum

section Inv

variable [Fintype Node] {s : Net Node}

theorem forwardInv_fire (h : ForwardInv height s) {ms rest : List (Msg Node)}
    (hp : s.msgs.Perm (ms ++ rest)) {r : Peer Node × List (Msg Node)}
    (hm : ForwardMove height i (s.node i) ms r.1 r.2) : ForwardInv height (s.fire i rest r) where
  local_ := Network.forall_node_fire h.local_ hm.local_
  msgs := Network.forall_msgs_fire h.msgs hp hm.msgs
  asked := by
    intro d sender j hask
    rcases List.mem_append.mp hask with hrest | hout
    · have hold := h.asked d sender j (hp.symm.subset (List.mem_append_right _ hrest))
      by_cases hj : j = i
      · subst hj
        rw [Network.fire_node_self]
        rcases hm.keeps with hkeeps | hkeeps
        · exact hkeeps.trans hold
        · -- the node has another claim than this request
          have h1 := Network.le_weight_msgs (claimAt j) (claimMsg j) s j
          have h2 := h.claims j
          have h3 := (hp.map (claimMsg j)).sum_eq
          have h4 := List.single_le_sum (fun _ _ => Nat.zero_le _) _
            (List.mem_map_of_mem (f := claimMsg j) hrest)
          rw [List.map_append, List.sum_append] at h3
          simp only [claimMsg, if_pos] at h4
          rw [← unserved_self_le] at h1
          omega
      · rw [Network.fire_node_ne s rest r hj]
        exact hold
    · obtain ⟨rfl, hd⟩ := hm.asked d sender j hout
      rw [Network.fire_node_self]
      exact hd
  claims := by
    intro j
    have h1 := Network.weight_fire (claimAt j) (claimMsg j) (i := i) hp r
    have h2 := hm.claims j
    have h3 := h.claims j
    omega

end Inv

/-! ## The calls of the thread -/

/-- A step of a node that is not blocked, and that sends no request. -/
theorem ForwardMove.of_unblocked {p p' : Peer Node} {ms out : List (Msg Node)}
    (hp' : ForwardLocal height i p') (hout : ∀ m ∈ out, ForwardMsg height m)
    (hasked : ∀ d sender j, .askLock d sender j .write ∉ out) (hfree : p.blocked = false)
    (hclaims : ∀ j, unserved j i p' + (out.map (claimMsg j)).sum ≤
      unserved j i p + (ms.map (claimMsg j)).sum) : ForwardMove height i p ms p' out where
  local_ := hp'
  msgs := hout
  asked := fun d sender j h => absurd h (hasked d sender j)
  keeps := by
    refine Or.inr ?_
    rw [if_pos hfree]
    exact Nat.le_add_right _ _
  claims := by
    intro j
    have h := hclaims j
    have hle : (if i = j ∧ p'.blocked = false then 1 else 0) ≤
        if i = j ∧ p.blocked = false then 1 else 0 := by
      split_ifs with h' hc
      · exact le_rfl
      · exact absurd ⟨h'.1, hfree⟩ hc
      · exact Nat.zero_le _
      · exact le_rfl
    unfold claimAt
    omega

/-- A thread that is not in `ask_lock` does not wait. -/
theorem ForwardLocal.not_waiting {p : Peer Node} (hp : ForwardLocal height i p)
    (hth : p.thread = .idle ∨ ∃ m, p.thread = .returned m) :
    p.blocked = false ∧ findLastWriter p.core = none ∧ p.core.predicate = false ∧
      (p.core.request ≠ [] → p.core.haveToken = i) := by
  have hwait : ∀ k, p.thread ≠ .condWait k := by
    intro k hk
    rcases hth with h | ⟨_, h⟩ <;> rw [h] at hk <;> cases hk
  have hsem : p.thread ≠ .semWait := by
    intro hk
    rcases hth with h | ⟨_, h⟩ <;> rw [h] at hk <;> cases hk
  refine ⟨blocked_eq_false hwait, hp.noWriter hsem, ?_, fun hne => (hp.list hne).resolve_right hsem⟩
  by_contra hne
  obtain ⟨k, hk⟩ := hp.predicate (by simpa using hne)
  exact hwait k hk

/-- A node without `WRITE` entries whose thread is not in `ask_lock`. -/
theorem ForwardLocal.of_not_waiting {p : Peer Node}
    (hth : (p.thread = .idle ∧ p.core.mode = .none) ∨ ∃ m, p.thread = .returned m)
    (hnone : findLastWriter p.core = none)
    (hpointer : p.core.haveToken = i ∨ height p.core.haveToken < height i)
    (hpred : p.core.predicate = false) (hlist : p.core.request ≠ [] → p.core.haveToken = i)
    (hreaders : ∀ r ∈ p.core.request, r.who ≠ i → height i < height r.who)
    (hsem : p.core.writeAutoLock = 0) : ForwardLocal height i p where
  writer := by
    intro w hw
    cases hnone.symm.trans hw
  pointer := fun _ => hpointer
  mode := by
    rcases hth with ⟨h, hmode⟩ | ⟨m, h⟩ <;> rw [h]
    · exact hmode
    · trivial
  blocked := by
    intro hblocked
    obtain ⟨⟨k, hk⟩, -⟩ := blocked_iff.mp hblocked
    rcases hth with ⟨h, -⟩ | ⟨m, h⟩ <;> rw [h] at hk <;> cases hk
  predicate := by
    intro hset
    cases hpred.symm.trans hset
  list := fun hne => Or.inl (hlist hne)
  readers := hreaders
  semaphore := hsem

/-- The entry of the node itself at the head of its list. -/
theorem ForwardLocal.readers_cons {p : Peer Node} (hp : ForwardLocal height i p) (k : LockType) :
    ∀ r ∈ (⟨k, i⟩ : Request Node) :: p.core.request, r.who ≠ i → height i < height r.who := by
  intro r hr hne
  rcases List.mem_cons.mp hr with rfl | hr
  · exact absurd rfl hne
  · exact hp.readers r hr hne

theorem forwardMove_askLock {p : Peer Node} (hp : ForwardLocal height i p) {m : LockType}
    {r : Peer Node × List (Msg Node)} (hr : askLock i p m = some r) :
    ForwardMove height i p [] r.1 r.2 := by
  obtain ⟨hthread, hcases⟩ := askLock_cases hr
  obtain ⟨hfree, hnone, hpred, hlist⟩ := hp.not_waiting hthread
  rcases hcases with ⟨hmode, rfl⟩ | ⟨hmode, htoken, -, rfl⟩ | ⟨hmode, htoken, hrequest, rfl, rfl⟩ |
    ⟨-, -, hset, -⟩ | ⟨hmode, htoken, -, rfl⟩
  · -- the page is already locked
    apply ForwardMove.of_unblocked
    · exact ForwardLocal.of_not_waiting (Or.inr ⟨_, rfl⟩) hnone (hp.pointer hnone) hpred hlist
        hp.readers hp.semaphore
    · simp
    · simp
    · exact hfree
    · intro j
      have hsem : p.thread ≠ .semWait := by
        intro h
        rcases hthread with h' | ⟨_, h'⟩ <;> rw [h'] at h <;> cases h
      simp [unserved, hsem]
  · cases m with
    | read =>
      have hnone' : findLastWriter (addRequest { p.core with mode := .reading } i .read) = none :=
        findLastWriter_cons_of_none hnone ⟨.read, i⟩
      apply ForwardMove.of_unblocked
      · exact ForwardLocal.of_not_waiting (Or.inr ⟨_, rfl⟩) hnone' (Or.inl htoken) hpred
          (fun _ => htoken) (hp.readers_cons .read) hp.semaphore
      · simp
      · simp
      · exact hfree
      · intro j
        rw [unserved_of_noWriter (i := i) (by exact hnone') j]
        simp [addRequest, LockType.toStatus]
    | write =>
      -- the node becomes its own last writer
      have hlast : findLastWriter (addRequest { p.core with mode := .writing } i .write) =
          some ⟨.write, i⟩ :=
        findLastWriter_cons_of_none hnone ⟨.write, i⟩
      apply ForwardMove.of_unblocked
      · refine ⟨?_, fun _ => Or.inl htoken, trivial, ?_, ?_, fun _ => Or.inl htoken,
          hp.readers_cons .write, hp.semaphore⟩
        · intro w hw
          cases hlast.symm.trans hw
          exact ⟨rfl, rfl⟩
        · intro hblocked
          simp [Peer.blocked, Peer.waits] at hblocked
        · intro hset
          cases hpred.symm.trans hset
      · simp
      · simp
      · exact hfree
      · intro j
        have hcount := count_write_of_noWriter hnone j
        by_cases hj : j = i
        · simp [unserved, hj]
        · simp [unserved, hj, addRequest, hcount, Ne.symm hj]
  · apply ForwardMove.of_unblocked
    · exact ForwardLocal.of_not_waiting (Or.inr ⟨_, rfl⟩) hnone (Or.inl htoken) hpred hlist
        hp.readers hp.semaphore
    · simp
    · simp
    · exact hfree
    · intro j
      simp [unserved, hrequest]
  · rw [hpred] at hset
    cases hset
  · -- the request goes to the supposed owner of the token
    have hempty : p.core.request = [] := by
      by_contra hne
      exact htoken (hlist hne)
    have hdown := (hp.pointer hnone).resolve_left htoken
    have hblocked : ({ p with
        core := { p.core with mode := m.toStatus }
        thread := .condWait m } : Peer Node).blocked = true :=
      blocked_iff.mpr ⟨⟨m, rfl⟩, hpred⟩
    refine ⟨⟨?_, fun _ => Or.inr hdown, toStatus_ne_none m, fun _ => htoken, ?_, ?_, hp.readers,
      hp.semaphore⟩, ?_, ?_, Or.inl rfl, ?_⟩
    · intro w hw
      cases hnone.symm.trans hw
    · intro hset
      cases hpred.symm.trans hset
    · intro hne
      exact absurd hempty hne
    · intro msg hmsg
      rw [List.mem_singleton.mp hmsg]
      exact hdown
    · intro d sender j hask
      cases List.mem_singleton.mp hask
      exact ⟨rfl, rfl⟩
    · intro j
      have hclaim : claimAt j i { p with
          core := { p.core with mode := m.toStatus }
          thread := .condWait m } = 0 := by
        rw [claimAt_of_empty (by exact hempty), hblocked]
        simp
      show claimAt j i { p with
          core := { p.core with mode := m.toStatus }
          thread := .condWait m } + _ ≤ _
      rw [hclaim, claimAt_of_empty hempty, hfree]
      simp [claimMsg]

theorem forwardMove_resume {p : Peer Node} (hp : ForwardLocal height i p) {k : LockType}
    (hth : p.thread = .condWait k) (hpred : p.core.predicate = true) :
    ForwardMove height i p []
      { p with core := { p.core with predicate := false }, thread := .returned k } [] := by
  have hsem : p.thread ≠ .semWait := by
    rw [hth]
    simp
  have hnone := hp.noWriter hsem
  apply ForwardMove.of_unblocked
  · exact ForwardLocal.of_not_waiting (Or.inr ⟨k, rfl⟩) hnone (hp.pointer hnone) rfl
      (fun hne => (hp.list hne).resolve_right hsem) hp.readers hp.semaphore
  · simp
  · simp
  · rw [← Bool.not_eq_true, blocked_iff, hpred]
    simp
  · intro j
    simp [unserved, hth]

theorem forwardMove_unlock {p : Peer Node} (hp : ForwardLocal height i p)
    (hclaim : claimAt i i p ≤ 1) {r : Peer Node × List (Msg Node)} (hr : unlock i p = some r) :
    ForwardMove height i p [] r.1 r.2 := by
  obtain ⟨k, x, hth, hx, rfl⟩ := unlock_eq_some hr
  obtain ⟨hfree, hnone, hpred, hlist⟩ := hp.not_waiting (Or.inr ⟨k, hth⟩)
  have hreads := findLastWriter_eq_none_iff.mp hnone
  -- the new state: the thread is idle, and the list has lost some entries
  have hlocal : ∀ l, l.Sublist p.core.request →
      ForwardLocal height i { p with
        core := { p.core with mode := .none, request := l }
        thread := .idle } := by
    intro l hl
    have hnone' : findLastWriter { p.core with mode := .none, request := l } = none :=
      findLastWriter_eq_none_iff.mpr fun r hr => hreads r (hl.subset hr)
    have hlist' : l ≠ [] → p.core.haveToken = i := by
      intro hne
      refine hlist ?_
      intro hempty
      rw [hempty, List.sublist_nil] at hl
      exact hne hl
    exact ForwardLocal.of_not_waiting (Or.inl ⟨rfl, rfl⟩) hnone' (hp.pointer hnone) hpred hlist'
      (fun e he => hp.readers e (hl.subset he)) hp.semaphore
  cases hmode : p.core.mode with
  | writing =>
    cases hrequest : p.core.request with
    | nil =>
      simp only [unlockInternal, hmode, hrequest, Option.some.injEq] at hx
      subst hx
      apply ForwardMove.of_unblocked
      · exact hlocal [] (List.nil_sublist _)
      · simp
      · simp
      · exact hfree
      · intro j
        simp [unserved]
    | cons first rest =>
      obtain ⟨fm, fw⟩ := first
      cases hreads _ (by rw [hrequest]; exact List.mem_cons_self)
      rw [unlockInternal_writing hmode hrequest] at hx
      cases hx
      have hall : (p.core.request.takeWhile fun r => r.mode = .read) = p.core.request := by
        rw [List.takeWhile_eq_self_iff]
        intro r hr
        simpa using hreads r hr
      rw [hall]
      have hown : p.core.request.count ⟨.read, i⟩ = 0 := by
        rw [← unserved_self_le, if_pos hfree, unserved_of_noWriter hnone, hmode, hth,
          if_pos ⟨rfl, by simp⟩] at hclaim
        omega
      apply ForwardMove.of_unblocked
      · exact hlocal p.core.request (List.Sublist.refl _)
      · intro m hm
        obtain ⟨r, hr, rfl⟩ := List.mem_map.mp hm
        intro _
        refine hp.readers r hr ?_
        intro hri
        have hmem : ⟨.read, i⟩ ∈ p.core.request := by
          rw [← hri, ← hreads r hr]
          exact hr
        exact List.count_eq_zero.mp hown hmem
      · simp
      · exact hfree
      · intro j
        rw [sum_claimMsg_getLock hreads, unserved_of_noWriter hnone, hmode, hth]
        rw [unserved_of_noWriter (p := { p with
          core := { p.core with mode := .none }
          thread := .idle }) hnone]
        simp
  | reading =>
    by_cases htoken : p.core.haveToken = i
    · simp only [unlockInternal, hmode, if_pos htoken, handleLocalUnlock_reads_only hreads,
        Option.some.injEq] at hx
      subst hx
      apply ForwardMove.of_unblocked
      · exact hlocal (removeRequest p.core i).request List.eraseP_sublist
      · simp
      · simp
      · exact hfree
      · intro j
        have hnone' : findLastWriter (removeRequest p.core i) = none :=
          findLastWriter_removeRequest_none hnone
        rw [unserved_of_noWriter hnone']
        simp
    · have hempty : p.core.request = [] := by
        by_contra hne
        exact htoken (hlist hne)
      simp only [unlockInternal, hmode, if_neg htoken, Option.some.injEq] at hx
      subst hx
      apply ForwardMove.of_unblocked
      · exact hlocal p.core.request (List.Sublist.refl _)
      · intro m hm
        rw [List.mem_singleton.mp hm]
        exact Ne.symm htoken
      · simp
      · exact hfree
      · intro j
        simp [unserved, hempty, claimMsg]
  | none =>
    simp only [unlockInternal, hmode] at hx
    cases hx

/-! ## The handlers -/

/-- The request of `j` is added at a node that is not blocked, and perhaps answered. -/
theorem forwardMove_addRequest {p : Peer Node} (hp : ForwardLocal height i p) {sender j : Node}
    {k : LockType} (hj : height i < height j) (hfree : p.blocked = false)
    (hlast : ∀ w, findLastWriter (addRequest p.core j k) = some w → w.who = i ∧ p.thread = .semWait)
    (hpointer : p.core.haveToken = i ∨ p.thread = .semWait)
    (htoken : findLastWriter (addRequest p.core j k) = none → p.core.haveToken = i)
    {out : List (Msg Node)} (hout : out = [] ∨ out = [.getLock j i i .read])
    (hclaims : ∀ j', unserved j' i { p with core := addRequest p.core j k } +
      (out.map (claimMsg j')).sum ≤ unserved j' i p + if j = j' then 1 else 0) :
    ForwardMove height i p [.askLock i sender j k] { p with core := addRequest p.core j k } out := by
  apply ForwardMove.of_unblocked
  · refine ⟨hlast, fun hnone => Or.inl (htoken hnone), hp.mode, ?_, hp.predicate,
      fun _ => hpointer, ?_, hp.semaphore⟩
    · intro hblocked
      exact absurd (hfree.symm.trans hblocked) (by simp)
    · intro e he hne
      rcases List.mem_cons.mp he with rfl | he
      · exact hj
      · exact hp.readers e he hne
  · intro m hm
    rcases hout with rfl | rfl
    · cases hm
    · rw [List.mem_singleton.mp hm]
      exact fun _ => hj
  · rcases hout with rfl | rfl <;> simp
  · exact hfree
  · intro j'
    simpa [claimMsg] using hclaims j'

/-- A read request at the node with the token, where no writer is in the list. -/
theorem forwardMove_addReader {p : Peer Node} (hp : ForwardLocal height i p) {sender j : Node}
    (hj : height i < height j) (htoken : p.core.haveToken = i)
    (hnone : findLastWriter p.core = none) {out : List (Msg Node)}
    (hout : out = [] ∨ out = [.getLock j i i .read])
    (hclaims : ∀ j', (if p.core.mode = .writing ∧ p.thread ≠ .semWait then
        (⟨.read, j⟩ :: p.core.request : List (Request Node)).count ⟨.read, j'⟩ else 0) +
      (out.map (claimMsg j')).sum ≤ (if p.core.mode = .writing ∧ p.thread ≠ .semWait then
        p.core.request.count ⟨.read, j'⟩ else 0) + if j = j' then 1 else 0) :
    ForwardMove height i p [.askLock i sender j .read]
      { p with core := addRequest p.core j .read } out := by
  have hfree : p.blocked = false := by
    rw [← Bool.not_eq_true]
    exact fun h => hp.blocked h htoken
  have hnone' : findLastWriter (addRequest p.core j .read) = none :=
    findLastWriter_cons_of_none hnone ⟨.read, j⟩
  apply forwardMove_addRequest hp hj hfree
  · intro w hw
    cases hnone'.symm.trans hw
  · exact Or.inl htoken
  · exact fun _ => htoken
  · exact hout
  · intro j'
    rw [unserved_of_noWriter (p := { p with core := addRequest p.core j .read }) hnone',
      unserved_of_noWriter hnone]
    exact hclaims j'

theorem forwardMove_handleAskLock {p : Peer Node} (hp : ForwardLocal height i p) {sender j : Node}
    {k : LockType} (hj : height i < height j)
    (hqueued : k = .write → ∃ w, findLastWriter p.core = some w ∧ w.who = i) :
    ForwardMove height i p [.askLock i sender j k]
      { p with core := (handleAskLock i p.core j k).1 } (handleAskLock i p.core j k).2 := by
  have hread : findLastWriter p.core = none → k = .read := by
    intro hnone
    cases k with
    | read => rfl
    | write =>
      obtain ⟨w, hw, -⟩ := hqueued rfl
      rw [hnone] at hw
      cases hw
  rcases handleAskLock_cases i p.core j k with ⟨w, hw, hwho, heq⟩ | ⟨w, hw, hwho, -⟩ |
    ⟨hnone, -, -, hk, -⟩ | ⟨hnone, htoken, hmode, rfl, heq⟩ | ⟨hnone, htoken, -, -, heq⟩ |
    ⟨hnone, htoken, heq⟩
  · -- the request waits behind the writer
    have hsem := (hp.writer w hw).2
    have hlast : findLastWriter (addRequest p.core j k) = some w := findLastWriter_cons hw ⟨k, j⟩
    rw [heq]
    apply forwardMove_addRequest hp hj
    · apply blocked_eq_false
      rw [hsem]
      simp
    · intro w' hw'
      cases hlast.symm.trans hw'
      exact ⟨hwho, hsem⟩
    · exact Or.inr hsem
    · intro hnone
      cases hlast.symm.trans hnone
    · exact Or.inl rfl
    · intro j'
      have hne : ¬ (p.core.mode = .writing ∧ p.thread ≠ .semWait) := fun h => h.2 hsem
      simp only [unserved, if_neg hne, addRequest, List.count_cons]
      split_ifs <;> simp_all
  · exact absurd (hp.writer w hw).1 hwho
  · rw [hread hnone] at hk
    cases hk
  · have hne : ¬ (p.core.mode = .writing ∧ p.thread ≠ .semWait) := by
      rintro ⟨h, -⟩
      rcases hmode with h' | h' <;> rw [h] at h' <;> cases h'
    rw [heq]
    apply forwardMove_addReader hp hj htoken hnone (Or.inr rfl)
    intro j'
    rw [if_neg hne, if_neg hne]
    simp [claimMsg]
  · cases hread hnone
    rw [heq]
    apply forwardMove_addReader hp hj htoken hnone (Or.inl rfl)
    intro j'
    simp only [List.count_cons]
    split_ifs <;> simp_all
  · -- the request is passed on, to a lower node
    cases hread hnone
    have hdown := (hp.pointer hnone).resolve_left htoken
    rw [heq, if_neg (by simp)]
    refine ⟨hp, ?_, ?_, Or.inl rfl, ?_⟩
    · intro m hm
      rw [List.mem_singleton.mp hm]
      exact hdown.trans hj
    · intro d sender j' hask
      cases List.mem_singleton.mp hask
    · intro j'
      exact le_rfl

/-- A blocked node gets the lock. -/
theorem forwardMove_handleGetLock {p : Peer Node} (hp : ForwardLocal height i p)
    (hblocked : p.blocked = true) {sender initiator : Node} {k : LockType}
    (hdown : k = .read → height sender < height i) :
    ForwardMove height i p [.getLock i sender initiator k]
      { p with core := handleGetLock i p.core sender k } [] := by
  obtain ⟨⟨m, hth⟩, hpred⟩ := blocked_iff.mp hblocked
  have hempty := hp.list_of_blocked hblocked
  have hmode : p.core.mode ≠ .none := by
    have h := hp.mode
    rw [hth] at h
    exact h
  have heq : handleGetLock i p.core sender k =
      { p.core with haveToken := if k = .write then i else sender, predicate := true } := by
    cases k <;> simp [handleGetLock, hmode]
  have hnone : findLastWriter p.core = none := by
    rw [findLastWriter_eq_none_iff, hempty]
    simp
  rw [heq]
  refine ⟨⟨?_, ?_, hp.mode, ?_, fun _ => ⟨m, hth⟩, fun hne => absurd hempty hne, hp.readers,
    hp.semaphore⟩, by simp, by simp, ?_, ?_⟩
  · intro w hw
    cases hnone.symm.trans hw
  · intro _
    cases k with
    | read => exact Or.inr (hdown rfl)
    | write => exact Or.inl rfl
  · intro h
    simp [Peer.blocked, Peer.waits] at h
  · refine Or.inr ?_
    simp [claimMsg]
  · intro j
    rw [claimAt_of_empty (p := { p with core := { p.core with
      haveToken := if k = .write then i else sender
      predicate := true } }) hempty, claimAt_of_empty hempty]
    simp only [List.map_cons, List.map_nil, List.sum_cons, List.sum_nil, claimMsg]
    split_ifs <;> simp_all

/-- A node that has the token releases the lock for `sender`. The last writer, which is the node
itself, stays unless it was the head of the list and the only writer. -/
theorem forwardMove_handleLocalUnlock {p : Peer Node} (hp : ForwardLocal height i p)
    (htoken : p.core.haveToken = i) {sender initiator : Node} {k : LockType} (hsender : sender ≠ i) :
    ForwardMove height i p [.unlock i sender initiator k]
      { p with core := (handleLocalUnlock i p.core sender).1 }
      (handleLocalUnlock i p.core sender).2 := by
  have hfree : p.blocked = false := by
    rw [← Bool.not_eq_true]
    exact fun h => hp.blocked h htoken
  have hsub : (removeRequest p.core sender).request.Sublist p.core.request := List.eraseP_sublist
  have hwriter : ∀ w, findLastWriter (removeRequest p.core sender) = some w →
      findLastWriter p.core = some w := by
    intro w hw
    cases hlast : findLastWriter p.core with
    | none => cases (findLastWriter_removeRequest_none hlast).symm.trans hw
    | some w' =>
      have hne : w'.who ≠ sender := by
        rw [(hp.writer w' hlast).1]
        exact Ne.symm hsender
      cases (findLastWriter_removeRequest hlast hne).symm.trans hw
      rfl
  -- the new state: the list has lost some entries
  have hlocal : ∀ l token, l.Sublist p.core.request →
      (∀ w, findLastWriter { p.core with request := l } = some w →
        findLastWriter p.core = some w) →
      (token = i ∨ findLastWriter { p.core with request := l } ≠ none) →
      ForwardLocal height i { p with core := { p.core with request := l, haveToken := token } } := by
    intro l token hl hlast htoken'
    refine ⟨fun w hw => hp.writer w (hlast w hw), ?_, hp.mode, ?_, hp.predicate, ?_, ?_,
      hp.semaphore⟩
    · intro hnone
      exact Or.inl (htoken'.resolve_right fun h => h hnone)
    · intro hblocked
      exact absurd (hfree.symm.trans hblocked) (by simp)
    · intro _
      rcases htoken' with h | h
      · exact Or.inl h
      · obtain ⟨w, hw⟩ := Option.ne_none_iff_exists'.mp h
        exact Or.inr (hp.writer w (hlast w hw)).2
    · intro e he
      exact hp.readers e (hl.subset he)
  have hcount : ∀ l token j, l.Sublist p.core.request →
      unserved j i { p with core := { p.core with request := l, haveToken := token } } ≤
        unserved j i p := by
    intro l token j hl
    have h1 := hl.count_le (⟨.read, j⟩ : Request Node)
    have h2 := hl.count_le (⟨.write, j⟩ : Request Node)
    simp only [unserved]
    split_ifs <;> omega
  rcases handleLocalUnlock_cases i sender p.core with ⟨-, heq⟩ | ⟨t, ht, heq⟩ | ⟨q, t, hq, ht, heq⟩
  · rw [heq]
    apply ForwardMove.of_unblocked
    · exact hlocal (removeRequest p.core sender).request p.core.haveToken hsub hwriter
        (Or.inl htoken)
    · simp
    · simp
    · exact hfree
    · intro j
      exact Nat.add_le_add_right (hcount _ _ j hsub) _
  · -- the node was the first writer of its own list
    have htsub : t.Sublist p.core.request := ((List.sublist_cons_self _ t).trans (ht ▸ hsub))
    rw [heq]
    apply ForwardMove.of_unblocked
    · refine hlocal t p.core.haveToken htsub ?_ (Or.inl htoken)
      intro w hw
      exact hwriter w (findLastWriter_tail ht hw)
    · simp
    · simp
    · exact hfree
    · intro j
      exact Nat.add_le_add_right (hcount _ _ j htsub) _
  · -- another writer gets the token, and the node stays in the list
    have htsub : t.Sublist p.core.request := ((List.sublist_cons_self _ t).trans (ht ▸ hsub))
    have hkeeps : ∀ w, findLastWriter { p.core with request := t } = some w →
        findLastWriter p.core = some w := fun w hw => hwriter w (findLastWriter_tail ht hw)
    have hlast : findLastWriter { p.core with request := t } ≠ none := by
      intro hnone
      have hhead : findLastWriter (removeRequest p.core sender) = some ⟨.write, q⟩ := by
        unfold findLastWriter
        rw [ht]
        exact findLastWriter_cons_of_none hnone ⟨.write, q⟩
      exact hq (hp.writer _ (hwriter _ hhead)).1
    rw [heq]
    apply ForwardMove.of_unblocked
    · exact hlocal t q htsub hkeeps (Or.inr hlast)
    · intro m hm
      rw [List.mem_singleton.mp hm]
      intro hk
      cases hk
    · simp
    · exact hfree
    · intro j
      have h1 := htsub.count_le (⟨.read, j⟩ : Request Node)
      have h2 := (ht ▸ hsub).count_le (⟨.write, j⟩ : Request Node)
      rw [List.count_cons] at h2
      simp only [unserved, List.map_cons, List.map_nil, List.sum_cons, List.sum_nil, claimMsg]
      split_ifs <;> simp_all <;> omega

theorem forwardMove_handleUnlock {p : Peer Node} (hp : ForwardLocal height i p)
    {sender initiator : Node} {k : LockType} (hsender : sender ≠ i) :
    ForwardMove height i p [.unlock i sender initiator k]
      { p with core := (handleUnlock i p.core sender initiator k).1 }
      (handleUnlock i p.core sender initiator k).2 := by
  by_cases htoken : p.core.haveToken = i
  · rw [handleUnlock, if_neg (not_not.mpr htoken)]
    exact forwardMove_handleLocalUnlock hp htoken hsender
  · rw [handleUnlock, if_pos htoken]
    refine ⟨hp, ?_, by simp, Or.inl rfl, fun j => le_rfl⟩
    intro m hm
    rw [List.mem_singleton.mp hm]
    exact Ne.symm htoken

/-! ## Runs -/

section Run

variable [Fintype Node] {nodeList : Node → List Node} {s s' : Net Node}

/-- A node waits as long as its request, or the answer, is in flight. -/
theorem ForwardInv.blocked (h : ForwardInv height s) {m : Msg Node} (hm : m ∈ s.msgs) {j : Node}
    (hj : claimMsg j m = 1) : (s.node j).blocked = true := by
  have h1 := Network.le_weight_msg (claimAt j) (claimMsg j) s j hm
  have h2 := h.claims j
  rw [← unserved_self_le, hj] at h1
  by_contra hne
  rw [Bool.not_eq_true] at hne
  rw [if_pos hne] at h1
  omega

omit [Fintype Node] in
theorem writersQueued_write {d sender j : Node} :
    writersQueued s (.deliver (.askLock d sender j .write)) = true ↔
      ∃ w, findLastWriter (s.node d).core = some w ∧ w.who = d := by
  simp [writersQueued, Option.any_eq_true]

theorem forwardInv_step (h : ForwardInv height s) {e : Event Node} (he : noLeave e = true)
    (hq : writersQueued s e = true) (hstep : step nodeList s e = some s') :
    ForwardInv height s' := by
  rcases Network.step_cases hstep with ⟨i, a, r, rfl, hr, rfl⟩ | ⟨m, r, rfl, hm, hr, rfl⟩
  · refine forwardInv_fire h (Network.perm_act _) ?_
    have hp := h.local_ i
    change act (nodeList i) i (s.node i) a = some r at hr
    cases a with
    | askLock m => exact forwardMove_askLock hp hr
    | resume =>
      obtain ⟨k, hth, hpred, rfl⟩ := resume_eq_some hr
      exact forwardMove_resume hp hth hpred
    | semWake =>
      obtain ⟨-, hpos, -⟩ := semWake_eq_some hr
      rw [hp.semaphore] at hpos
      exact absurd hpos (Nat.lt_irrefl 0)
    | unlock =>
      have hclaim := (Network.le_weight_node (claimAt i) (claimMsg i) s i).trans (h.claims i)
      exact forwardMove_unlock hp hclaim hr
    | leaveCore d => cases he
    | leaveFinish =>
      obtain ⟨d, b, hth, -⟩ := leaveFinish_eq_some hr
      have hmode := hp.mode
      rw [hth] at hmode
      exact hmode.elim
  · have hmsg := h.msgs m hm
    refine forwardInv_fire h (Network.perm_deliver hm) ?_
    have hp := h.local_ m.dest
    change handle m.dest (s.node m.dest) m = some r at hr
    cases m with
    | askLock d sender j k =>
      obtain ⟨-, rfl⟩ := underMutex_eq_some hr
      refine forwardMove_handleAskLock hp hmsg ?_
      rintro rfl
      exact writersQueued_write.mp hq
    | getLock j sender initiator k =>
      obtain ⟨-, rfl⟩ := underMutex_eq_some hr
      exact forwardMove_handleGetLock hp (h.blocked hm (if_pos rfl)) hmsg
    | unlock d sender initiator k =>
      obtain ⟨-, rfl⟩ := underMutex_eq_some hr
      exact forwardMove_handleUnlock hp hmsg
    | _ => exact hmsg.elim

/-- Along the pointers, the message comes to an end. -/
theorem ForwardInv.forwardingEnds (h : ForwardInv height s) : ForwardingEnds s := by
  intro initiator d
  induction hheight : height d using Nat.strong_induction_on generalizing d with
  | _ n ih =>
    have hp := h.local_ d
    rcases handleAskLock_cases d (s.node d).core initiator .read with ⟨w, hw, hwho, heq⟩ |
      ⟨w, hw, hwho, -⟩ | ⟨-, -, -, hk, -⟩ | ⟨-, -, -, -, heq⟩ | ⟨-, -, -, -, heq⟩ |
      ⟨hnone, htoken, heq⟩
    · exact .queued heq
    · exact absurd (hp.writer w hw).1 hwho
    · cases hk
    · exact .queued heq
    · exact .queued heq
    · have hdown := (hp.pointer hnone).resolve_left htoken
      rw [if_neg (by simp)] at heq
      rw [hheight] at hdown
      exact .forwarded heq (ih _ hdown _ rfl)

omit [Fintype Node] in
/-- Two nodes that pass the message on to each other never answer it. -/
theorem not_answered_of_cycle {initiator x y : Node}
    (hx : handleAskLock x (s.node x).core initiator .read =
      ((s.node x).core, [.askLock y x initiator .read]))
    (hy : handleAskLock y (s.node y).core initiator .read =
      ((s.node y).core, [.askLock x y initiator .read])) : ¬ Answered s initiator x := by
  have hne : ∀ c : CoreInfo Node, addRequest c initiator .read ≠ c := by
    intro c hc
    have hlength := congrArg (fun c => c.request.length) hc
    simp [addRequest] at hlength
  have hall : ∀ d, Answered s initiator d → d ≠ x ∧ d ≠ y := by
    intro d h
    induction h with
    | queued h =>
      constructor
      · rintro rfl
        exact hne _ (congrArg Prod.fst (h.symm.trans hx))
      · rintro rfl
        exact hne _ (congrArg Prod.fst (h.symm.trans hy))
    | forwarded h _ ih =>
      constructor
      · rintro rfl
        have hout := congrArg Prod.snd (h.symm.trans hx)
        cases hout
        exact ih.2 rfl
      · rintro rfl
        have hout := congrArg Prod.snd (h.symm.trans hy)
        cases hout
        exact ih.1 rfl
  exact fun h => (hall x h).1 rfl

omit [Fintype Node] in
/-- A node without writers points to the initiator of the request for `WRITE` that it has handled.
-/
theorem handleAskLock_after_write {x y : Node} (hne : y ≠ x) {c : CoreInfo Node}
    (hnone : findLastWriter c = none) (initiator : Node) :
    handleAskLock x (handleAskLock x c y .write).1 initiator .read =
      ((handleAskLock x c y .write).1, [.askLock y x initiator .read]) := by
  have htoken : ∀ out, handleAskLock x c y .write = ({ c with haveToken := y }, out) →
      handleAskLock x (handleAskLock x c y .write).1 initiator .read =
        ((handleAskLock x c y .write).1, [.askLock y x initiator .read]) := by
    intro out heq
    rw [heq, handleAskLock]
    rw [show findLastWriter { c with haveToken := y } = none from hnone]
    simp [hne]
  rcases handleAskLock_cases x c y .write with ⟨w, hw, -⟩ | ⟨w, hw, -⟩ | ⟨-, -, -, -, -, heq⟩ |
    ⟨-, -, -, hk, -⟩ | ⟨-, -, -, -, heq⟩ | ⟨-, -, heq⟩
  · cases hnone.symm.trans hw
  · cases hnone.symm.trans hw
  · exact htoken _ heq
  · cases hk
  · have hlast : findLastWriter (addRequest c y .write) = some ⟨.write, y⟩ :=
      findLastWriter_cons_of_none hnone ⟨.write, y⟩
    rw [heq, handleAskLock, hlast]
    simp [hne]
  · rw [if_pos rfl] at heq
    exact htoken _ heq

/-- A request for `WRITE` that is not queued behind the node itself makes this node and the
initiator point to each other. -/
theorem not_forwardingEnds_of_step (h : ForwardInv height s) {e : Event Node}
    (hq : writersQueued s e = false) (hstep : step nodeList s e = some s') : ¬ ForwardingEnds s' := by
  obtain ⟨x, sender, y, rfl⟩ : ∃ x sender y, e = .deliver (.askLock x sender y .write) := by
    cases e with
    | act i a => cases hq
    | deliver m =>
      cases m with
      | askLock d sender j k =>
        cases k with
        | read => cases hq
        | write => exact ⟨d, sender, j, rfl⟩
      | _ => cases hq
  rcases Network.step_cases hstep with ⟨i, a, r, he, -⟩ | ⟨m, r, he, hm, hr, rfl⟩
  · cases he
  cases he
  obtain ⟨-, rfl⟩ := underMutex_eq_some hr
  have hxy : height x < height y := h.msgs _ hm
  have hne : y ≠ x := by
    rintro rfl
    exact Nat.lt_irrefl _ hxy
  have hpoints := h.asked x sender y hm
  have hempty := (h.local_ y).list_of_blocked (h.blocked hm (if_pos rfl))
  have hnone : findLastWriter (s.node x).core = none := by
    cases hlast : findLastWriter (s.node x).core with
    | none => rfl
    | some w =>
      rw [writersQueued_write.mpr ⟨w, hlast, ((h.local_ x).writer w hlast).1⟩] at hq
      cases hq
  have hcycle : ∀ rest (r : Peer Node × List (Msg Node)),
      r.1.core = (handleAskLock x (s.node x).core y .write).1 →
        ¬ ForwardingEnds (s.fire x rest r) := by
    intro rest r hr hends
    refine not_answered_of_cycle (x := x) (y := y) ?_ ?_ (hends y x)
    · rw [Network.fire_node_self, hr]
      exact handleAskLock_after_write hne hnone y
    · rw [Network.fire_node_ne s _ _ hne]
      simp [handleAskLock, findLastWriter, hempty, hpoints, Ne.symm hne]
  exact hcycle _ _ rfl

theorem forwardingEnds_iff_meets (h : ForwardInv height s) {es : List (Event Node)} {t : Net Node}
    (hrun : Network.run (step nodeList) s es = some t) (hes : ∀ e ∈ es, noLeave e = true) :
    (∀ es₁, es₁ <+: es → ∀ s₁, Network.run (step nodeList) s es₁ = some s₁ → ForwardingEnds s₁) ↔
      Network.Meets (step nodeList) (fun s e => writersQueued s e = true) s es := by
  induction es generalizing s with
  | nil =>
    refine iff_of_true ?_ trivial
    intro es₁ hes₁ s₁ hs₁
    rw [List.prefix_nil.mp hes₁] at hs₁
    cases hs₁
    exact h.forwardingEnds
  | cons e es ih =>
    obtain ⟨s', hs', hrun'⟩ := Network.run_cons_eq_some.mp hrun
    have he := hes e List.mem_cons_self
    have hes' : ∀ e ∈ es, noLeave e = true := fun e' he' => hes e' (List.mem_cons_of_mem e he')
    rw [Network.forall_prefix_cons]
    constructor
    · rintro ⟨-, hall⟩
      have hq : writersQueued s e = true := by
        by_contra hne
        rw [Bool.not_eq_true] at hne
        exact not_forwardingEnds_of_step h hne hs' (hall s' hs' [] List.nil_prefix s' rfl)
      refine ⟨hq, ?_⟩
      intro s₁ hs₁
      rw [Option.mem_def, hs'] at hs₁
      cases hs₁
      exact (ih (forwardInv_step h he hq hs') hrun' hes').mp (hall s' hs')
    · rintro ⟨hq, hmeets⟩
      refine ⟨h.forwardingEnds, ?_⟩
      intro s₁ hs₁
      rw [hs'] at hs₁
      cases hs₁
      exact (ih (forwardInv_step h he hq hs') hrun' hes').mpr (hmeets s' hs')

theorem forwardInv_pointerNet {father : Node → Node} {o : Node}
    (hroot : Pointers.Root father (fun _ => True) o) :
    ∃ height, ForwardInv height (pointerNet father) := by
  obtain ⟨height, hheight⟩ := Pointers.exists_height fun a => hroot.leads a trivial
  refine ⟨height, ?_, by simp [pointerNet], by simp [pointerNet], ?_⟩
  · intro i
    have hpointer : father i = i ∨ height (father i) < height i := by
      by_cases hi : i = o
      · subst hi
        exact Or.inl hroot.self
      · exact Or.inr (hheight i hi)
    exact ForwardLocal.of_not_waiting (Or.inl ⟨rfl, rfl⟩) rfl hpointer rfl
      (fun hne => absurd rfl hne) (fun r hr => absurd hr List.not_mem_nil) rfl
  · intro j
    simp [Network.Net.weight, pointerNet, claimAt, unserved, initCore, Peer.blocked, Peer.waits]

/-- Forwarding ends: in every state that a run reaches from pointers that lead to one node, an
`ASK_LOCK(READ)` handled at any node is queued or answered after finitely many hops, if and only if
in the run every `ASK_LOCK(WRITE)` is handled by a node whose last writer is the node itself. -/
theorem ask_lock_forwarding_ends_iff {father : Node → Node} {o : Node}
    (hroot : Pointers.Root father (fun _ => True) o) {es : List (Event Node)} {t : Net Node}
    (hrun : Network.run (step nodeList) (pointerNet father) es = some t)
    (hes : ∀ e ∈ es, noLeave e = true) :
    (∀ es₁, es₁ <+: es → ∀ s₁, Network.run (step nodeList) (pointerNet father) es₁ = some s₁ →
        ForwardingEnds s₁) ↔
      Network.Meets (step nodeList) (fun s e => writersQueued s e = true) (pointerNet father) es := by
  obtain ⟨height, h⟩ := forwardInv_pointerNet hroot
  exact forwardingEnds_iff_meets h hrun hes

end Run

/-! ## Two runs -/

/-- The node `b` asks for `WRITE` while the node `a` is a writer that waits behind the reader `c`.
-/
def queuedRun (a b c : Node) : List (Event Node) :=
  [.act c (.askLock .read), .deliver (.askLock b c c .read), .deliver (.askLock a b c .read),
    .act a (.askLock .write), .act b (.askLock .write), .deliver (.askLock a b b .write)]

theorem ask_lock_forwarding_ends_iff_queuedRun :
    ∃ s, Network.run (step fun _ => []) (pointerNet (chain (0 : Fin 3) 1 2)) (queuedRun 0 1 2) =
        some s ∧ ForwardingEnds s := by
  have hrun : Network.run (step fun _ => []) (pointerNet (chain (0 : Fin 3) 1 2))
      (queuedRun 0 1 2) = some _ := rfl
  have h := (ask_lock_forwarding_ends_iff chain_root hrun (by decide)).mpr (by decide)
  exact ⟨_, hrun, h _ List.prefix_rfl _ hrun⟩

/-- The request of the node `b` for `WRITE` is handled at the node `a`, which has the token and does
not use it; a request of the node `c` for `READ` comes next. -/
def answeredRun (a b c : Node) : List (Event Node) :=
  [.act b (.askLock .write), .act c (.askLock .read), .deliver (.askLock a b b .write)]

/-- While the `GET_LOCK` is in flight, the nodes 0 and 1 point to each other, and the `ASK_LOCK` of
the node 2 goes to and fro between them. -/
theorem ask_lock_forwarding_loops :
    ∃ s, Network.run (step fun _ => []) (initNet 0) (answeredRun (0 : Fin 3) 1 2) = some s ∧
      (∀ e ∈ answeredRun (0 : Fin 3) 1 2, noLeave e = true) ∧ .getLock 1 0 0 .write ∈ s.msgs ∧
      .askLock 0 2 2 .read ∈ s.msgs ∧ ¬ Answered s 2 0 :=
  ⟨_, rfl, by decide, by decide, by decide, not_answered_of_cycle (y := 1) rfl rfl⟩

end PageLock
