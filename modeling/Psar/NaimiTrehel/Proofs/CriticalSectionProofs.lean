import Psar.NaimiTrehel.CriticalSection

/-!
# Proofs: what the functions of the critical section can do

One lemma for each function that lists its outcomes, together with the tests that lead to them.
-/

namespace NaimiTrehel

variable {Node : Type}

/-- `request_CS` returns at once at the token, and waits otherwise, with a request to the father if
there is one. -/
theorem requestCS_cases (i : Node) (p : Peer Node) :
    (p.token = true ∧ requestCS i p =
      ({ p with requesting := true, users := p.users + 1, inside := p.inside + 1 }, [])) ∨
    (p.token = false ∧ p.father = none ∧ requestCS i p =
      ({ p with requesting := true, waiting := p.waiting + 1 }, [])) ∨
    (∃ f, p.token = false ∧ p.father = some f ∧ requestCS i p =
      ({ p with requesting := true, father := none, waiting := p.waiting + 1 },
        [.requestCS f i i])) := by
  cases htok : p.token with
  | true => exact Or.inl ⟨rfl, by simp [requestCS, htok]⟩
  | false =>
    cases hf : p.father with
    | none => exact Or.inr (Or.inl ⟨rfl, rfl, by simp [requestCS, htok, hf]⟩)
    | some f =>
      exact Or.inr (Or.inr ⟨f, rfl, rfl, by simp [requestCS, htok, hf, sendRequestToFather]⟩)

theorem wake_eq_some {p p' : Peer Node} (h : wake p = some p') :
    0 < p.waiting ∧ p.token = true ∧
      p' = { p with users := p.users + 1, waiting := p.waiting - 1, inside := p.inside + 1 } := by
  unfold wake at h
  split at h
  · rename_i hcond
    exact ⟨hcond.1, hcond.2, by simpa using h.symm⟩
  · cases h

/-- `release_CS` passes the token on when the last thread leaves and a requester is known. -/
theorem releaseCS_cases {i : Node} {p : Peer Node} {r : Peer Node × List (Msg Node)}
    (h : releaseCS i p = some r) : 0 < p.inside ∧
    ((p.users - 1 ≠ 0 ∧ r = ({ p with users := p.users - 1, inside := p.inside - 1 }, [])) ∨
    (p.users - 1 = 0 ∧ p.next = none ∧
      r = ({ p with users := 0, inside := p.inside - 1, requesting := false }, [])) ∨
    (∃ n, p.users - 1 = 0 ∧ p.next = some n ∧
      r = ({ p with
        users := 0, inside := p.inside - 1, requesting := false, token := false, next := none },
        [.getCS n i]))) := by
  simp only [releaseCS] at h
  split at h
  · rename_i hin
    refine ⟨hin, ?_⟩
    split at h
    · rename_i h0
      split at h
      · rename_i n hn
        exact Or.inr (Or.inr ⟨n, h0, hn, by simpa [h0] using h.symm⟩)
      · rename_i hn
        exact Or.inr (Or.inl ⟨h0, hn, by simpa [h0] using h.symm⟩)
    · rename_i h0
      exact Or.inl ⟨h0, by simpa using h.symm⟩
  · cases h

/-- `REQUEST_CS_handler` ignores a request while the node leaves; otherwise it queues it, answers it
with the token or passes it on, and the requester becomes the father. -/
theorem requestCSHandler_cases (i : Node) (p : Peer Node) (y : Node) :
    (p.leaving = true ∧ requestCSHandler i p y = (p, [])) ∨
    (p.leaving = false ∧ p.father = none ∧ p.requesting = true ∧
      requestCSHandler i p y = ({ p with next := some y, father := some y }, [])) ∨
    (p.leaving = false ∧ p.father = none ∧ p.requesting = false ∧
      requestCSHandler i p y = ({ p with token := false, father := some y }, [.getCS y i])) ∨
    (∃ f, p.leaving = false ∧ p.father = some f ∧
      requestCSHandler i p y = ({ p with father := some y }, [.requestCS f i y])) := by
  cases hl : p.leaving with
  | true => exact Or.inl ⟨rfl, by simp [requestCSHandler, hl]⟩
  | false =>
    cases hf : p.father with
    | none =>
      cases hreq : p.requesting with
      | true => exact Or.inr (Or.inl ⟨rfl, rfl, rfl, by simp [requestCSHandler, hl, hf, hreq]⟩)
      | false =>
        exact Or.inr (Or.inr (Or.inl ⟨rfl, rfl, rfl, by simp [requestCSHandler, hl, hf, hreq]⟩))
    | some f =>
      exact Or.inr (Or.inr (Or.inr ⟨f, rfl, rfl, by
        simp [requestCSHandler, hl, hf, sendRequestToFather]⟩))

/-- `RESET_CS_handler` acknowledges, and asks for the token again if the node wants it. -/
theorem resetCSHandler_cases (i : Node) (p : Peer Node) (sender : Node) :
    (p.requesting = true ∧ resetCSHandler i p sender =
      (initInternalData p none false true, [.ackCS sender i, .requestCS sender i i])) ∨
    (p.requesting = false ∧ resetCSHandler i p sender =
      (initInternalData p (some sender) false false, [.ackCS sender i])) := by
  cases hreq : p.requesting with
  | true =>
    exact Or.inl ⟨rfl, by simp [resetCSHandler, initInternalData, sendRequestToFather, hreq]⟩
  | false => exact Or.inr ⟨rfl, by simp [resetCSHandler, initInternalData, hreq]⟩

/-- The loop of `NEW_ROOT_CS_handler` changes nothing but the handlers that wait, and sends
`RESET_CS` to the nodes that are left and `LEAVE_CS`. -/
theorem resetLoop_spec (i : Node) (p : Peer Node) (leaver : Node) (rest : List Node) :
    (∃ q, (resetLoop i p leaver rest).1 = { p with resetting := q ++ p.resetting } ∧
      ∀ x ∈ q, x.rest ⊆ rest) ∧
    ∀ m ∈ (resetLoop i p leaver rest).2,
      m = .leaveCS leaver i ∨ ∃ n ∈ rest, m = .resetCS n i := by
  induction rest with
  | nil => exact ⟨⟨[], rfl, by simp⟩, by simp [resetLoop]⟩
  | cons n rest ih =>
    by_cases hacked : p.acked = true
    · obtain ⟨⟨q, hq, hrest⟩, hmsgs⟩ := ih
      have heq : resetLoop i p leaver (n :: rest) =
          ((resetLoop i p leaver rest).1, .resetCS n i :: (resetLoop i p leaver rest).2) := by
        simp [resetLoop, hacked]
      rw [heq]
      refine ⟨⟨q, hq, fun x hx => List.subset_cons_of_subset n (hrest x hx)⟩, ?_⟩
      intro m hm
      rcases List.mem_cons.mp hm with rfl | hm
      · exact Or.inr ⟨n, List.mem_cons_self, rfl⟩
      · rcases hmsgs m hm with h | ⟨n', hn', h⟩
        · exact Or.inl h
        · exact Or.inr ⟨n', List.mem_cons_of_mem n hn', h⟩
    · have heq : resetLoop i p leaver (n :: rest) =
          ({ p with resetting := ⟨leaver, rest⟩ :: p.resetting }, [.resetCS n i]) := by
        simp [resetLoop, hacked]
      rw [heq]
      refine ⟨⟨[⟨leaver, rest⟩], rfl, ?_⟩, ?_⟩
      · intro x hx
        obtain rfl := List.mem_singleton.mp hx
        exact List.subset_cons_self n rest
      · intro m hm
        exact Or.inr ⟨n, List.mem_cons_self, List.mem_singleton.mp hm⟩

theorem leaveCS_eq_some {i newRoot : Node} {p : Peer Node} {r : Peer Node × List (Msg Node)}
    (h : leaveCS i p newRoot = some r) : 0 < p.inside ∧
      r = ({ p with leaving := true, inside := p.inside - 1 },
        [.newRootCS (p.next.getD newRoot) i]) := by
  unfold leaveCS at h
  split at h
  · rename_i hin
    exact ⟨hin, by simpa using h.symm⟩
  · cases h

end NaimiTrehel
