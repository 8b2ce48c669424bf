import Psar.Core.UnlockChain
import Psar.Core.Proofs.PageLockProofs

/-!
# Proofs: forwarding an `UNLOCK`

The owner of the token removes an entry of the node that sent the message to it. That is the reader
only if no other node has passed the message on.
-/

namespace PageLock

variable {Node : Type} [DecidableEq Node]

/-! ## The sender -/

theorem unlock_of_forward {m m' : Msg Node} {hop : Hop Node} (h : hop.forward m = some m') :
    ∃ dest sender initiator mode, m = .unlock dest sender initiator mode ∧
      m' = .unlock hop.core.haveToken hop.node initiator mode := by
  cases m with
  | unlock dest sender initiator mode =>
    simp only [Hop.forward] at h
    split_ifs at h with hif
    rw [handleUnlock, if_pos hif.2] at h
    cases h
    exact ⟨dest, sender, initiator, mode, rfl, rfl⟩
  | _ => cases h

/-- Whatever way the message takes, its sender is the node that sent it last. -/
theorem sender_of_forwards {dest dest' sender sender' initiator initiator' : Node}
    {mode mode' : LockType} {hops : List (Hop Node)}
    (h : forwards (.unlock dest sender initiator mode) hops =
      some (.unlock dest' sender' initiator' mode')) : sender' = lastSender sender hops := by
  induction hops generalizing dest sender initiator mode with
  | nil =>
    cases h
    rfl
  | cons hop hops ih =>
    obtain ⟨m, hm, hrest⟩ := Option.bind_eq_some_iff.mp h
    obtain ⟨_, _, _, _, heq, rfl⟩ := unlock_of_forward hm
    cases heq
    exact ih hrest

/-! ## The entries -/

theorem removesRead_removeRequest {n₀ : Node} {c : CoreInfo Node}
    (h : c.request.find? (fun r => r.who = n₀) = some ⟨.read, n₀⟩) :
    ∃ before after, c.request = before ++ ⟨.read, n₀⟩ :: after ∧
      (removeRequest c n₀).request = before ++ after := by
  obtain ⟨-, before, after, heq, hbefore⟩ := List.find?_eq_some_iff_append.mp h
  refine ⟨before, after, heq, ?_⟩
  show c.request.eraseP _ = _
  rw [heq, List.eraseP_append_right _ (fun r hr => by simpa using hbefore r hr)]
  simp

/-- A removal that takes away a `READ` entry of `n₀` is a removal for `n₀`. -/
theorem find?_of_count_removeRequest {n₀ s : Node} {c : CoreInfo Node}
    (h : c.request.count ⟨.read, n₀⟩ = (removeRequest c s).request.count ⟨.read, n₀⟩ + 1) :
    s = n₀ ∧ c.request.find? (fun r => r.who = n₀) = some ⟨.read, n₀⟩ := by
  have hremove : (removeRequest c s).request = c.request.eraseP fun r => r.who = s := rfl
  rcases List.exists_or_eq_self_of_eraseP (fun r => decide (r.who = s)) c.request with
    hself | ⟨r, before, after, hbefore, hr, heq, herase⟩
  · rw [hremove, hself] at h
    omega
  · rw [hremove, herase, heq, List.count_append, List.count_append, List.count_cons] at h
    have hread : r = ⟨.read, n₀⟩ := by
      by_contra hne
      rw [if_neg (by simpa using hne)] at h
      omega
    subst hread
    have hs : n₀ = s := of_decide_eq_true hr
    subst hs
    refine ⟨rfl, ?_⟩
    rw [heq, List.find?_append, List.find?_eq_none.mpr hbefore]
    simp

/-- Besides the entry of `s`, `handle_local_UNLOCK` removes at most a `WRITE` entry. -/
theorem count_handleLocalUnlock (i s n₀ : Node) (c : CoreInfo Node) :
    (handleLocalUnlock i c s).1.request.count ⟨.read, n₀⟩ =
      (removeRequest c s).request.count ⟨.read, n₀⟩ := by
  rcases handleLocalUnlock_cases i s c with ⟨-, heq⟩ | ⟨t, hhead, heq⟩ | ⟨q, t, -, hhead, heq⟩
  · rw [heq]
  · rw [heq, hhead]
    simp
  · rw [heq, hhead]
    simp

theorem count_of_releases {n₀ : Node} {c c' : CoreInfo Node} (h : Releases n₀ c c') :
    c.request.count ⟨.read, n₀⟩ = c'.request.count ⟨.read, n₀⟩ + 1 := by
  obtain ⟨before, after, heq, hrest⟩ := h
  have hcount : c.request.count ⟨.read, n₀⟩ = (before ++ after).count ⟨.read, n₀⟩ + 1 := by
    rw [heq]
    simp
    omega
  rcases hrest with hrest | ⟨q, hrest⟩
  · rw [hcount, hrest]
  · rw [hcount, hrest]
    simp

omit [DecidableEq Node] in
theorem RemovesRead.releases {n₀ : Node} {c c' : CoreInfo Node} (h : RemovesRead n₀ c c') :
    Releases n₀ c c' := by
  obtain ⟨before, after, heq, hrest⟩ := h
  exact ⟨before, after, heq, Or.inl hrest⟩

/-! ## The release -/

/-- The node with the token releases the lock of `n₀` if and only if the message says that it comes
from `n₀` and the first entry of `n₀` is a `READ` entry. -/
theorem releases_iff {i s n₀ : Node} {c : CoreInfo Node} :
    Releases n₀ c (handleLocalUnlock i c s).1 ↔
      s = n₀ ∧ c.request.find? (fun r => r.who = n₀) = some ⟨.read, n₀⟩ := by
  constructor
  · intro h
    apply find?_of_count_removeRequest
    rw [← count_handleLocalUnlock i s n₀ c]
    exact count_of_releases h
  · rintro ⟨rfl, hfind⟩
    obtain ⟨before, after, heq, hremove⟩ := removesRead_removeRequest hfind
    refine ⟨before, after, heq, ?_⟩
    rcases handleLocalUnlock_cases i s c with ⟨-, h⟩ | ⟨t, hhead, h⟩ | ⟨q, t, -, hhead, h⟩
    · rw [h]
      exact Or.inl hremove
    · rw [h]
      exact Or.inr ⟨i, hremove.symm.trans hhead⟩
    · rw [h]
      exact Or.inr ⟨q, hremove.symm.trans hhead⟩

/-- Nothing else is removed if and only if no `WRITE` entry comes first then. -/
theorem removesRead_iff {i s n₀ : Node} {c : CoreInfo Node} :
    RemovesRead n₀ c (handleLocalUnlock i c s).1 ↔
      (s = n₀ ∧ c.request.find? (fun r => r.who = n₀) = some ⟨.read, n₀⟩) ∧
        ∀ q t, (removeRequest c n₀).request ≠ ⟨.write, q⟩ :: t := by
  constructor
  · intro h
    have hrel := releases_iff.mp h.releases
    obtain ⟨rfl, hfind⟩ := hrel
    refine ⟨⟨rfl, hfind⟩, ?_⟩
    intro q t hhead
    obtain ⟨before, after, heq, hrest⟩ := h
    obtain ⟨before', after', heq', hremove⟩ := removesRead_removeRequest hfind
    -- one entry less on one side, two on the other
    have hlen := congrArg List.length (heq.symm.trans heq')
    have hlen' := congrArg List.length (hremove.symm.trans hhead)
    have hlen'' := congrArg List.length hrest
    rw [handleLocalUnlock_head hhead] at hlen''
    have ht : (if q = i then (({ c with request := t }, []) : CoreInfo Node × List (Msg Node))
        else ({ c with request := t, haveToken := q }, [.getLock q i i .write])).1.request = t := by
      split_ifs <;> rfl
    rw [ht] at hlen''
    simp only [List.length_append, List.length_cons] at hlen hlen' hlen''
    omega
  · rintro ⟨⟨rfl, hfind⟩, hhead⟩
    obtain ⟨before, after, heq, hremove⟩ := removesRead_removeRequest hfind
    refine ⟨before, after, heq, ?_⟩
    rw [handleLocalUnlock_keep hhead]
    exact hremove

/-- A forwarded `UNLOCK` releases the lock of the reader `n₀` that issued it if and only if the last
node that sent it is `n₀` and the first entry of `n₀` in the list is a `READ` entry; no other entry
is removed if and only if, besides, no `WRITE` entry comes first then. -/
theorem forwarded_unlock_releases_iff {n₀ nₖ sender initiator : Node} {mode : LockType}
    {c₀ c₀' c : CoreInfo Node} {m : Msg Node} {hops : List (Hop Node)}
    (hreader : c₀.mode = .reading) (hforeign : c₀.haveToken ≠ n₀)
    (hissue : unlockInternal n₀ c₀ = some (c₀', [m]))
    (hhops : forwards m hops = some (.unlock nₖ sender initiator mode))
    (htoken : c.haveToken = nₖ) :
    (Releases n₀ c (handleUnlock nₖ c sender initiator mode).1 ↔
      lastSender n₀ hops = n₀ ∧ c.request.find? (fun r => r.who = n₀) = some ⟨.read, n₀⟩) ∧
    (RemovesRead n₀ c (handleUnlock nₖ c sender initiator mode).1 ↔
      (lastSender n₀ hops = n₀ ∧ c.request.find? (fun r => r.who = n₀) = some ⟨.read, n₀⟩) ∧
        ∀ q t, (removeRequest c n₀).request ≠ ⟨.write, q⟩ :: t) := by
  have hm : m = .unlock c₀.haveToken n₀ n₀ .read := by
    simp only [unlockInternal, hreader, if_neg hforeign, Option.some.injEq, Prod.mk.injEq,
      List.cons.injEq, and_true] at hissue
    exact hissue.2.symm
  subst hm
  have hsender := sender_of_forwards hhops
  have hlocal : handleUnlock nₖ c sender initiator mode = handleLocalUnlock nₖ c sender := by
    rw [handleUnlock, if_neg (not_not.mpr htoken)]
  rw [hlocal, hsender]
  exact ⟨releases_iff, removesRead_iff⟩

/-- The node 0 releases the lock at the node 1, which has the token, and its entry is removed. When
the node 1 passes the message on to the node 2, it is not. -/
theorem forwarded_unlock_releases_iff_hops :
    RemovesRead 0 ⟨.none, [⟨.read, 2⟩, ⟨.read, 0⟩], 1, 0, false⟩
        (handleUnlock (1 : Fin 3) ⟨.none, [⟨.read, 2⟩, ⟨.read, 0⟩], 1, 0, false⟩ 0 0 .read).1 ∧
      ¬ Releases 0 ⟨.none, [⟨.read, 1⟩, ⟨.read, 0⟩], 2, 0, false⟩
        (handleUnlock (2 : Fin 3) ⟨.none, [⟨.read, 1⟩, ⟨.read, 0⟩], 2, 0, false⟩ 1 0 .read).1 := by
  have hdirect := @forwarded_unlock_releases_iff (Fin 3) _ 0 1 0 0 .read
    ⟨.reading, [], 1, 0, false⟩ ⟨.none, [], 1, 0, false⟩
    ⟨.none, [⟨.read, 2⟩, ⟨.read, 0⟩], 1, 0, false⟩ (.unlock 1 0 0 .read) [] rfl (by decide) rfl rfl
    rfl
  have hhop := @forwarded_unlock_releases_iff (Fin 3) _ 0 2 1 0 .read
    ⟨.reading, [], 1, 0, false⟩ ⟨.none, [], 1, 0, false⟩
    ⟨.none, [⟨.read, 1⟩, ⟨.read, 0⟩], 2, 0, false⟩ (.unlock 1 0 0 .read)
    [⟨1, ⟨.reading, [], 2, 0, false⟩⟩] rfl (by decide) rfl rfl rfl
  constructor
  · refine hdirect.2.mpr ⟨⟨rfl, rfl⟩, ?_⟩
    intro q t hhead
    cases hhead
  · intro h
    cases (hhop.1.mp h).1

/-- The node `a` reads when the token moves from the node `b` to the writer `c`, which lets the node
`b` read then. -/
def forwardedUnlockRun (a b c : Node) : List (Event Node) :=
  [.act a (.askLock .read), .deliver (.askLock b a a .read), .deliver (.getLock a b b .read),
    .act a .resume, .act b (.askLock .read), .act c (.askLock .write),
    .deliver (.askLock b c c .write), .act b .unlock, .deliver (.getLock c b b .write),
    .act c .resume, .act b (.askLock .read), .deliver (.askLock c b b .read), .act c .unlock,
    .deliver (.getLock b c c .read), .act b .resume, .act a .unlock, .deliver (.unlock b a a .read)]

/-- The node 1 passes the `UNLOCK` of the node 0 on, and its own entry is removed while it reads. -/
theorem forwarded_unlock_other_reader :
    ∃ s, Network.run (step fun _ => []) (initNet 1) (forwardedUnlockRun (0 : Fin 3) 1 2) = some s ∧
      forwards (.unlock 1 0 0 .read) [⟨1, (s.node 1).core⟩] = some (.unlock 2 1 0 .read) ∧
      s.msgs = [.unlock 2 1 0 .read] ∧ (s.node 1).thread = .returned .read ∧
      (s.node 2).core.haveToken = 2 ∧ (s.node 2).core.request = [⟨.read, 1⟩] ∧
      (handleUnlock 2 (s.node 2).core 1 0 .read).1.request = [] ∧
      ¬ Releases 0 (s.node 2).core (handleUnlock 2 (s.node 2).core 1 0 .read).1 := by
  refine ⟨_, rfl, by decide, by decide, by decide, by decide, by decide, by decide, ?_⟩
  intro h
  exact absurd (count_of_releases h) (by decide)

end PageLock
