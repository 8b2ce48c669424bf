import Psar.Library.Join
import Psar.Library.Proofs.NetworkProofs

/-!
# Proofs: networks that nodes join

All nodes that are named have joined, so no message is lost, and what holds of every run with all
nodes there from the start holds of every run with joins.
-/

namespace Network

variable {ι S M A : Type} [DecidableEq ι] {P : Protocol ι S M A} {start : ι → S} {absent : S}
  {N : Naming ι S M} {s s' : JoinNet ι S M}

/-! ## What a step does -/

/-- A node joins, a node that has joined moves, or a message is lost. -/
theorem join_cases [DecidableEq M] {e : JoinEvent ι M A}
    (h : step (joinProtocol P start) s e = some s') :
    (∃ i contact, e = .act i (.join contact) ∧ s.node i = none ∧
      s' = s.fire i s.msgs (some (start contact), [])) ∨
    (∃ i x a r, e = .act i (.act a) ∧ s.node i = some x ∧ P.act i x a = some r ∧
      s' = s.fire i s.msgs (joined r)) ∨
    (∃ m x r, e = .deliver m ∧ m ∈ s.msgs ∧ s.node (P.dest m) = some x ∧
      P.handle (P.dest m) x m = some r ∧ s' = s.fire (P.dest m) (s.msgs.erase m) (joined r)) ∨
    (∃ m, e = .deliver m ∧ m ∈ s.msgs ∧ s.node (P.dest m) = none) := by
  rcases step_cases h with ⟨i, a, r, rfl, hr, rfl⟩ | ⟨m, r, rfl, hm, hr, rfl⟩
  · change joinAct P start i (s.node i) a = some r at hr
    cases hx : s.node i with
    | none =>
      rw [hx] at hr
      cases a with
      | join contact =>
        cases hr
        exact Or.inl ⟨i, contact, rfl, hx, rfl⟩
      | act a => cases hr
    | some x =>
      rw [hx] at hr
      cases a with
      | join contact => cases hr
      | act a =>
        obtain ⟨r', hr', rfl⟩ := Option.map_eq_some_iff.mp hr
        exact Or.inr (Or.inl ⟨i, x, a, r', rfl, hx, hr', rfl⟩)
  · change joinHandle P (P.dest m) (s.node (P.dest m)) m = some r at hr
    cases hx : s.node (P.dest m) with
    | none => exact Or.inr (Or.inr (Or.inr ⟨m, rfl, hm, hx⟩))
    | some x =>
      rw [hx] at hr
      obtain ⟨r', hr', rfl⟩ := Option.map_eq_some_iff.mp hr
      exact Or.inr (Or.inr (Or.inl ⟨m, x, r', rfl, hm, hx, hr', rfl⟩))

/-- A node that has joined stays. -/
theorem isSome_fire {i n : ι} (rest : List M) (x : S) (out : List M)
    (hn : n = i ∨ (s.node n).isSome = true) :
    ((s.fire i rest (some x, out)).node n).isSome = true := by
  by_cases h : n = i
  · subst h
    rw [fire_node_self]
    rfl
  · rw [fire_node_ne _ _ _ h]
    exact hn.resolve_left h

/-! ## Nodes that know each other -/

/-- A node that has joined, or joins, moves without naming a node that has not. -/
theorem Naming.Closed.fire (h : N.Closed s) {i : ι} {ms rest : List M}
    (hp : s.msgs.Perm (ms ++ rest)) {x : S} {out : List M}
    (hkeeps : N.Keeps (fun n => n = i ∨ (s.node n).isSome = true) (x, out)) :
    N.Closed (s.fire i rest (some x, out)) where
  node := fun j y hy n hn => by
    refine isSome_fire rest x out ?_
    by_cases hj : j = i
    · subst hj
      rw [fire_node_self] at hy
      obtain rfl := Option.some.inj hy
      exact hkeeps.1 n hn
    · rw [fire_node_ne _ _ _ hj] at hy
      exact Or.inr (h.node j y hy n hn)
  msgs := forall_msgs_fire (fun m hm n hn => isSome_fire rest x out (Or.inr (h.msgs m hm n hn))) hp
    fun m hm n hn => isSome_fire rest x out (hkeeps.2 m hm n hn)

omit [DecidableEq ι] in
/-- No message goes to a node that has not joined. -/
theorem Naming.Closed.exists_dest {allowed : A → Prop} (h : N.Closed s) (hN : N.Local P allowed)
    {m : M} (hm : m ∈ s.msgs) : ∃ x, s.node (P.dest m) = some x :=
  Option.isSome_iff_exists.mp (h.msgs m hm _ (hN.dest m))

theorem closed_step [DecidableEq M] {allowed : A → Prop} {ok : Net ι S M → Event ι M A → Prop}
    (hN : N.Local P allowed) (hallowed : ∀ t i a, ok t (.act i a) → allowed a)
    (hstart : ∀ contact n, N.inState (start contact) n → n = contact) {e : JoinEvent ι M A}
    (h : N.Closed s) (hok : JoinOk absent ok s e)
    (hstep : step (joinProtocol P start) s e = some s') : N.Closed s' := by
  rcases join_cases hstep with ⟨i, contact, rfl, -, rfl⟩ | ⟨i, x, a, r, rfl, hx, hr, rfl⟩ |
    ⟨m, x, r, rfl, hm, hx, hr, rfl⟩ | ⟨m, rfl, hm, hx⟩
  · refine h.fire (perm_act _) ⟨fun n hn => ?_, by simp⟩
    obtain rfl := hstart contact n hn
    exact Or.inr hok
  · obtain ⟨hstate, hmsgs⟩ := hN.act i x a r (hallowed _ i a hok) hr
    refine h.fire (perm_act _) ⟨fun n hn => ?_, fun m hm n hn => ?_⟩
    · exact (hstate n hn).imp_right (h.node i x hx n)
    · exact (hmsgs m hm n hn).imp_right (h.node i x hx n)
  · obtain ⟨hstate, hmsgs⟩ := hN.handle _ x m r hr
    have hknown : ∀ n, n = P.dest m ∨ N.inState x n ∨ N.inMsg m n →
        n = P.dest m ∨ (s.node n).isSome = true := by
      rintro n (hn | hn | hn)
      · exact Or.inl hn
      · exact Or.inr (h.node _ x hx n hn)
      · exact Or.inr (h.msgs m hm n hn)
    exact h.fire (perm_deliver hm)
      ⟨fun n hn => hknown n (hstate n hn), fun m' hm' n hn => hknown n (hmsgs m' hm' n hn)⟩
  · obtain ⟨x, hx'⟩ := h.exists_dest hN hm
    rw [hx] at hx'
    cases hx'

/-! ## The network with all nodes -/

omit [DecidableEq ι] in
theorem view_node_of_some {i : ι} {x : S} (h : s.node i = some x) : (view absent s).node i = x := by
  simp [view, h]

omit [DecidableEq ι] in
theorem view_node_of_none {i : ι} (h : s.node i = none) : (view absent s).node i = absent := by
  simp [view, h]

/-- A node that has joined moves. -/
theorem view_fire (i : ι) (rest : List M) (x : S) (out : List M) :
    view absent (s.fire i rest (some x, out)) = (view absent s).fire i rest (x, out) := by
  unfold view Net.fire
  congr 1
  funext j
  by_cases hj : j = i
  · subst hj
    simp
  · simp [hj]

/-- The invariant rule for runs with joins: what the steps keep when all nodes are there, and what
holds whatever node an absent node joins through, holds throughout every run with joins; the node
`o` is there from the start. -/
theorem join_run_invariant [DecidableEq M] {allowed : A → Prop}
    {ok : Net ι S M → Event ι M A → Prop} {I : Net ι S M → Prop}
    (hN : N.Local P allowed) (hallowed : ∀ t i a, ok t (.act i a) → allowed a)
    (hstart : ∀ contact n, N.inState (start contact) n → n = contact)
    (hI : ∀ t e t', I t → ok t e → step P t e = some t' → I t')
    {o : ι} (hjoin : ∀ t i contact, I t → t.node i = absent → i ≠ o → contact ≠ i →
      I (t.fire i t.msgs (start contact, [])))
    {es : List (JoinEvent ι M A)} (hs : N.Closed s) (ho : (s.node o).isSome = true)
    (hview : I (view absent s))
    (hok : Meets (step (joinProtocol P start)) (JoinOk absent ok) s es)
    (hrun : run (step (joinProtocol P start)) s es = some s') :
    N.Closed s' ∧ I (view absent s') := by
  have hinv : N.Closed s' ∧ (s'.node o).isSome = true ∧ I (view absent s') := by
    refine run_invariant (P := fun s => N.Closed s ∧ (s.node o).isSome = true ∧ I (view absent s))
      ?_ ⟨hs, ho, hview⟩ hok hrun
    rintro s e s' ⟨hc, ho, h⟩ hok hstep
    refine ⟨closed_step hN hallowed hstart hc hok hstep, ?_⟩
    rcases join_cases hstep with ⟨i, contact, rfl, hi, rfl⟩ | ⟨i, x, a, r, rfl, hx, hr, rfl⟩ |
      ⟨m, x, r, rfl, hm, hx, hr, rfl⟩ | ⟨m, rfl, hm, hx⟩
    · have hjoined : ∀ n, (s.node n).isSome = true → n ≠ i := by
        rintro n hn rfl
        simp [hi] at hn
      refine ⟨isSome_fire _ _ _ (Or.inr ho), ?_⟩
      rw [view_fire]
      exact hjoin _ i contact h (view_node_of_none hi) (hjoined o ho).symm (hjoined contact hok)
    · refine ⟨isSome_fire _ _ _ (Or.inr ho), ?_⟩
      rw [joined, view_fire]
      refine hI _ (.act i a) _ h hok (step_act ?_)
      rw [view_node_of_some hx]
      exact hr
    · refine ⟨isSome_fire _ _ _ (Or.inr ho), ?_⟩
      rw [joined, view_fire]
      refine hI _ (.deliver m) _ h hok (step_deliver (s := view absent s) hm ?_)
      rw [view_node_of_some hx]
      exact hr
    · obtain ⟨x, hx'⟩ := hc.exists_dest hN hm
      rw [hx] at hx'
      cases hx'
  exact ⟨hinv.1, hinv.2.2⟩

end Network
