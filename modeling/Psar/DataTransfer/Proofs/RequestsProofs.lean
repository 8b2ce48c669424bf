import Psar.DataTransfer.Requests
import Psar.DataTransfer.Proofs.OwnershipProofs

/-!
# Proofs: requests for the page

A request is neither lost nor doubled, and every handler passes it on to a node of a higher rank.
-/

namespace DataTransfer

variable {Node C : Type} [DecidableEq Node] [Fintype Node]

/-! ## One request under way -/

section Once

variable {s s' : Net Node C} {y : Node}

omit [Fintype Node] in
theorem sum_pendingMsg (y : Node) (l : List (Msg Node C)) :
    (l.map (pendingMsg y)).sum = l.countP (Msg.isFor y) := by
  induction l with
  | nil => rfl
  | cons m l ih =>
    rw [List.map_cons, List.sum_cons, ih, List.countP_cons, Nat.add_comm]
    congr 1
    cases m <;> simp [pendingMsg, Msg.isFor]

theorem sum_pendingOf (s : Net Node C) (y : Node) :
    ∑ n, pendingOf y n (s.node n) = if (s.node y).waits = false then 1 else 0 := by
  rw [Finset.sum_eq_single y]
  · simp [pendingOf]
  · intro n _ hn
    simp [pendingOf, hn]
  · simp

theorem once_iff : Once s y ↔
    ((s.node y).waits = false ∧ s.msgs.countP (Msg.isFor y) = 0) ∨
      ((s.node y).waits = true ∧ s.msgs.countP (Msg.isFor y) = 1) := by
  unfold Once Network.Net.weight
  rw [sum_pendingOf, sum_pendingMsg]
  cases (s.node y).waits <;> simp

theorem Once.fire (h : Once s y) {i : Node} {ms rest : List (Msg Node C)}
    {r : Peer Node C × List (Msg Node C)} (hp : s.msgs.Perm (ms ++ rest))
    (hpend : pendingOf y i r.1 + r.2.countP (Msg.isFor y) =
      pendingOf y i (s.node i) + ms.countP (Msg.isFor y)) : Once (s.fire i rest r) y := by
  have h1 := Network.weight_fire (pendingOf y) (pendingMsg y) hp r (i := i)
  unfold Once at h ⊢
  rw [sum_pendingMsg, sum_pendingMsg] at h1
  omega

variable [DecidableEq C] {nodeList : Node → List Node} {e : Event Node C}

omit [Fintype Node] in
/-- A thread that takes a step does not wait, and waits afterwards if it asks for the page. -/
theorem act_waits {i : Node} {p : Peer Node C} {a : Action C} {l : List Node}
    {r : Peer Node C × List (Msg Node C)} (h : act l i p a = some r) :
    p.waits = false ∧ ((r.1.waits = false ∧ ∀ y, r.2.countP (Msg.isFor y) = 0) ∨
      (∃ writing, a = .sigsevHandler writing) ∧ r.1.waits = true ∧
        r.2 = [.askPage p.owner i]) := by
  cases a with
  | lock k =>
    obtain ⟨p', hp', rfl⟩ := Option.map_eq_some_iff.mp h
    obtain ⟨hth, ⟨-, rfl⟩ | ⟨-, rfl⟩⟩ := lock_cases hp' <;>
      simp [Peer.waits, hth]
  | grant =>
    obtain ⟨p', hp', rfl⟩ := Option.map_eq_some_iff.mp h
    obtain ⟨hth, rfl⟩ := grant_eq_some hp'
    simp [Peer.waits, hth]
  | unlock =>
    obtain ⟨p', hp', rfl⟩ := Option.map_eq_some_iff.mp h
    obtain ⟨hth, -, rfl⟩ := unlock_eq_some hp'
    simp [Peer.waits, hth]
  | sigsevHandler writing =>
    obtain ⟨hth, -, -, ⟨-, rfl⟩ | ⟨ho, -, rfl⟩⟩ := sigsevHandler_cases h
    · simp [Peer.waits, hth]
    · exact ⟨by simp [Peer.waits, hth], Or.inr ⟨⟨writing, rfl⟩, rfl, rfl⟩⟩
  | wake =>
    obtain ⟨p', hp', rfl⟩ := Option.map_eq_some_iff.mp h
    obtain ⟨writing, hth, hpred, rfl⟩ := wake_eq_some hp'
    simp [Peer.waits, hth, hpred]
  | protect =>
    obtain ⟨p', hp', rfl⟩ := Option.map_eq_some_iff.mp h
    rcases protect_cases hp' with ⟨hth, -, rfl⟩ | ⟨writing, hth, rfl⟩ <;> simp [Peer.waits, hth]
  | publish =>
    obtain ⟨hth, rfl⟩ := publish_eq_some h
    simp [Peer.waits, hth, sendInvalidation, Msg.isFor]
  | write page =>
    obtain ⟨p', hp', rfl⟩ := Option.map_eq_some_iff.mp h
    obtain ⟨hth, -, -, rfl⟩ := write_eq_some hp'
    simp [Peer.waits, hth]
  | read page =>
    obtain ⟨p', hp', rfl⟩ := Option.map_eq_some_iff.mp h
    obtain ⟨hth, -, -, -, rfl⟩ := read_eq_some hp'
    simp [Peer.waits, hth]

omit [DecidableEq C] in
/-- A node with a request or an answer in flight waits for the page. -/
theorem Once.waits_of_mem (h : Once s y) {m : Msg Node C} (hm : m ∈ s.msgs)
    (hy : m.isFor y = true) : (s.node y).waits = true := by
  rcases once_iff.mp h with ⟨-, hcount⟩ | ⟨hw, -⟩
  · exact absurd hy (List.countP_eq_zero.mp hcount m hm)
  · exact hw

theorem once_step (h : Once s y) (hstep : step nodeList s e = some s') : Once s' y := by
  rcases step_cases hstep with ⟨i, a, r, rfl, hr, rfl⟩ | ⟨m, rfl, hm, rfl⟩
  · refine h.fire (Network.perm_act _) ?_
    obtain ⟨hw, ⟨hw', hmsgs⟩ | ⟨-, hw', hmsgs⟩⟩ := act_waits hr
    · rw [pendingOf_of_not_waits hw, pendingOf_of_not_waits hw', hmsgs]
      rfl
    · rw [pendingOf_of_not_waits hw, hmsgs]
      by_cases hi : i = y <;> simp [pendingOf, hw', hi, Msg.isFor]
  · cases m with
    | invalidation d sender => exact h.fire (Network.perm_deliver hm) rfl
    | askPage d z =>
      refine h.fire (Network.perm_deliver hm) ?_
      rcases askPageHandler_cases d (s.node d) z with ⟨-, b, -, heq⟩ | ⟨-, heq⟩ <;>
        simp only [handle, Msg.dest, heq] <;> rfl
    | recvPage d o page =>
      refine h.fire (Network.perm_deliver hm) ?_
      obtain ⟨b, st, -, heq⟩ := updatePage_eq (s.node d) o page
      have hw' : (updatePage (s.node d) o page).waits = false := by
        rw [heq]
        unfold Peer.waits
        split <;> rfl
      simp only [handle, Msg.dest, pendingOf_of_not_waits hw']
      by_cases hd : d = y
      · -- the answer comes to the node that waits for it
        subst hd
        have hw := h.waits_of_mem hm (by simp [Msg.isFor])
        simp [pendingOf, hw, Msg.isFor]
      · simp [pendingOf, hd, Msg.isFor]

omit [DecidableEq C] in
theorem once_initNet (o : Node) (page : Node → C) (y : Node) : Once (initNet o page) y :=
  once_iff.mpr (Or.inl ⟨rfl, rfl⟩)

/-- No request for the page is lost or doubled: in every run, every node either does not wait for
the page, and no request and no answer of it is in flight, or it waits, and there is exactly one. So
when no `ASK_PAGE` and no `RECV_PAGE` is in flight, nobody waits in `sync_page`. -/
theorem request_in_flight_once {o : Node} {page : Node → C} {es : List (Event Node C)}
    (hrun : Network.run (step nodeList) (initNet o page) es = some s) (y : Node) :
    ((s.node y).waits = false ∧ s.msgs.countP (Msg.isFor y) = 0) ∨
      ((s.node y).waits = true ∧ s.msgs.countP (Msg.isFor y) = 1) :=
  once_iff.mp (Network.run_invariant (fun _ _ _ h _ hstep => once_step h hstep)
    (once_initNet o page y) (Network.meets_true _ _) hrun)

end Once

/-! ## The way of a request -/

section Hops

variable {rank : Node → ℕ} {d y : Node}

omit [DecidableEq Node] in
theorem above_lt_card (rank : Node → ℕ) (d : Node) : above rank d < Fintype.card Node := by
  refine Finset.card_lt_univ_of_notMem (x := d) ?_
  simp

omit [DecidableEq Node] in
theorem above_lt {d' : Node} (h : rank d < rank d') : above rank d' < above rank d := by
  refine Finset.card_lt_card (Finset.ssubset_iff_subset_ne.mpr ⟨fun n hn => ?_, fun heq => ?_⟩)
  · simp only [Finset.mem_filter, Finset.mem_univ, true_and] at hn ⊢
    omega
  · have hd' : d' ∈ Finset.univ.filter fun n => rank d' < rank n := by
      rw [heq]
      simpa using h
    simp at hd'

/-- A publication puts one more node above the others. -/
theorem above_update (i : Node) (r : ℕ) (hr : ∀ n, rank n < r) :
    above (Function.update rank i r) d ≤ above rank d + 1 := by
  have hsub : (Finset.univ.filter fun n => Function.update rank i r d <
      Function.update rank i r n) ⊆ insert i (Finset.univ.filter fun n => rank d < rank n) := by
    intro n hn
    simp only [Finset.mem_filter, Finset.mem_univ, true_and, Finset.mem_insert] at hn ⊢
    by_cases hi : n = i
    · exact Or.inl hi
    · right
      rw [Function.update_of_ne hi] at hn
      by_cases hd : d = i
      · rw [hd, Function.update_self] at hn
        exact absurd hn (not_lt.mpr (hr n).le)
      · rwa [Function.update_of_ne hd] at hn
  exact (Finset.card_le_card hsub).trans (Finset.card_insert_le _ _)

theorem hopsLeft_le (rank : Node → ℕ) (y : Node) (m : Msg Node C) :
    hopsLeft rank y m ≤ Fintype.card Node * pendingMsg y m := by
  cases m with
  | askPage d z =>
    have h := above_lt_card rank d
    by_cases hz : z = y
    · simpa [hopsLeft, pendingMsg, hz] using h
    · simp [hopsLeft, hz]
  | _ => exact Nat.zero_le _

theorem hopsLeft_update (i : Node) (r : ℕ) (hr : ∀ n, rank n < r) (m : Msg Node C) :
    hopsLeft (Function.update rank i r) y m ≤ hopsLeft rank y m + pendingMsg y m := by
  cases m with
  | askPage d z =>
    have h := above_update (d := d) i r hr
    by_cases hz : z = y
    · simp only [hopsLeft, pendingMsg, hz, if_true]
      omega
    · simp [hopsLeft, hz]
  | _ => exact Nat.zero_le _

variable {s s' : Net Node C} {g : (Node → ℕ) × Node}

theorem left_le_card (h : Once s y) : left rank y s ≤ Fintype.card Node := by
  have h1 : left rank y s ≤ (s.msgs.map fun m => Fintype.card Node * pendingMsg y m).sum :=
    List.sum_le_sum fun m _ => hopsLeft_le rank y m
  rw [List.sum_map_mul_left, sum_pendingMsg] at h1
  rcases once_iff.mp h with ⟨-, hcount⟩ | ⟨-, hcount⟩ <;> rw [hcount] at h1 <;> omega

theorem left_update (h : Once s y) (i : Node) (r : ℕ) (hr : ∀ n, rank n < r) :
    left (Function.update rank i r) y s ≤ left rank y s + 1 := by
  have h1 : left (Function.update rank i r) y s ≤
      (s.msgs.map fun m => hopsLeft rank y m + pendingMsg y m).sum :=
    List.sum_le_sum fun m _ => hopsLeft_update i r hr m
  rw [List.sum_map_add, sum_pendingMsg] at h1
  have h2 : left rank y s = (s.msgs.map (hopsLeft rank y)).sum := rfl
  rcases once_iff.mp h with ⟨-, hcount⟩ | ⟨-, hcount⟩ <;> rw [hcount] at h1 <;> omega

theorem left_fire (rank : Node → ℕ) (y : Node) {i : Node} {ms rest : List (Msg Node C)}
    (hp : s.msgs.Perm (ms ++ rest)) (r : Peer Node C × List (Msg Node C)) :
    left rank y (s.fire i rest r) + (ms.map (hopsLeft rank y)).sum =
      left rank y s + (r.2.map (hopsLeft rank y)).sum := by
  have h1 := (hp.map (hopsLeft rank y)).sum_eq
  simp only [left, Network.fire_msgs, List.map_append, List.sum_append] at h1 ⊢
  omega

variable [DecidableEq C] {nodeList : Node → List Node} {e : Event Node C}

omit [DecidableEq C] in
theorem left_publish (h : Ranked g.1 g.2 s) (ho : Once s y) {i : Node} {l : List Node}
    {r : Peer Node C × List (Msg Node C)} (hmsgs : r.2 = sendInvalidation i l) :
    left (Function.update g.1 i (g.1 g.2 + 1)) y (s.fire i s.msgs r) ≤ left g.1 y s + 1 := by
  have hup := left_update ho i (g.1 g.2 + 1) fun n => Nat.lt_succ_of_le (h.le n)
  have hsum := left_fire (Function.update g.1 i (g.1 g.2 + 1)) y (Network.perm_act s.msgs) r
    (i := i)
  have h0 : ((sendInvalidation i l : List (Msg Node C)).map
      (hopsLeft (Function.update g.1 i (g.1 g.2 + 1)) y)).sum = 0 := by
    simp [sendInvalidation, Function.comp_def, hopsLeft]
  rw [hmsgs, h0] at hsum
  simp only [List.map_nil, List.sum_nil] at hsum
  omega

/-- A page fault of `y` starts a new request, and a publication may put one more node on the way. -/
theorem left_act (h : Ranked g.1 g.2 s) (ho : Once s y) {i : Node} {a : Action C}
    {r : Peer Node C × List (Msg Node C)} (hr : act (nodeList i) i (s.node i) a = some r) :
    left (nextRank g (.act i a)).1 y (s.fire i s.msgs r) ≤
      left g.1 y s + Fintype.card Node * (isFault y (.act i a : Event Node C)).toNat +
        (isPublication (.act i a : Event Node C)).toNat := by
  have hnext : a ≠ .publish → nextRank g (.act i a : Event Node C) = g := by
    intro ha
    cases a <;> first | rfl | exact absurd rfl ha
  have hsum := left_fire g.1 y (Network.perm_act s.msgs) r (i := i)
  simp only [List.map_nil, List.sum_nil] at hsum
  rcases act_cases hr with ⟨ha, -, -, hmsgs⟩ | ⟨ha, -, -, -, hw, hmsgs⟩ | ⟨rfl, -, -, hmsgs⟩
  · rw [hmsgs] at hsum
    rw [hnext ha, show left g.1 y (s.fire i s.msgs r) = left g.1 y s from hsum]
    omega
  · have hle := hopsLeft_le g.1 y (Msg.askPage (s.node i).owner i : Msg Node C)
    have hfault : (isFault y (.act i a : Event Node C)).toNat =
        pendingMsg y (Msg.askPage (s.node i).owner i : Msg Node C) := by
      rcases act_waits hr with ⟨-, ⟨hw', -⟩ | ⟨⟨writing, rfl⟩, -, -⟩⟩
      · rw [hw] at hw'
        cases hw'
      · by_cases hi : i = y <;> simp [isFault, pendingMsg, hi]
    rw [hnext ha, hfault]
    rw [hmsgs, List.map_singleton, List.sum_singleton] at hsum
    omega
  · have hpub := left_publish h ho hmsgs
    simp only [nextRank, isPublication, Bool.toNat_true]
    omega

/-- A handler that has the request of `y` takes it one step further. -/
theorem left_deliver (h : Ranked g.1 g.2 s) {m : Msg Node C} (hm : m ∈ s.msgs) :
    left g.1 y (s.fire m.dest (s.msgs.erase m) (handle m.dest (s.node m.dest) m)) +
      (isHop y (.deliver m : Event Node C)).toNat ≤ left g.1 y s := by
  have hsum := left_fire g.1 y (Network.perm_deliver hm) (handle m.dest (s.node m.dest) m)
    (i := m.dest)
  have hmsg := h.msgs m hm
  cases m with
  | invalidation d sender =>
    simp only [handle, List.map_nil, List.sum_nil, List.map_cons, List.sum_cons] at hsum
    simp only [handle, isHop, Bool.toNat_false]
    omega
  | recvPage d o page =>
    simp only [handle, List.map_nil, List.sum_nil, List.map_cons, List.sum_cons] at hsum
    simp only [handle, isHop, Bool.toNat_false]
    omega
  | askPage d z =>
    simp only [List.map_nil, List.sum_nil, List.map_cons, List.sum_cons] at hsum
    have hnew : ((handle d (s.node d) (.askPage d z)).2.map (hopsLeft g.1 y)).sum +
        (isHop y (.deliver (.askPage d z) : Event Node C)).toNat ≤
          hopsLeft g.1 y (.askPage d z : Msg Node C) := by
      rcases askPageHandler_cases d (s.node d) z with ⟨-, b, -, heq⟩ | ⟨howner, heq⟩ <;>
        simp only [handle, heq, List.map_nil, List.sum_nil, List.map_cons, List.sum_cons] <;>
        by_cases hz : z = y <;>
        simp [hopsLeft, isHop, hz]
      exact above_lt (h.owner d howner)
    simp only [Msg.dest] at hsum ⊢
    omega

/-- The accounting of the handlers over one step. -/
theorem left_step (h : Ranked g.1 g.2 s) (ho : Once s y)
    (hstep : step nodeList s e = some s') :
    left (nextRank g e).1 y s' + (isHop y e).toNat ≤
      left g.1 y s + Fintype.card Node * (isFault y e).toNat + (isPublication e).toNat := by
  rcases step_cases hstep with ⟨i, a, r, rfl, hr, rfl⟩ | ⟨m, rfl, hm, rfl⟩
  · exact left_act h ho hr
  · have hle := left_deliver (y := y) h hm
    have hnext : nextRank g (.deliver m : Event Node C) = g := rfl
    rw [hnext]
    omega

/-- A request takes few steps: in every run in which no node makes itself the owner while an
`INVALIDATION` to it is in flight, the `ASK_PAGE`s of a node are handled at most as often as there
are nodes for every page fault of it, and once more for every publication of the page. -/
theorem hops_bounded (hlist : ∀ n m, m ∈ nodeList n ↔ m ≠ n) {o : Node} {page : Node → C}
    {es : List (Event Node C)} (hrun : Network.run (step nodeList) (initNet o page) es = some s)
    (hok : Network.Meets (step nodeList) (fun s e => publishesLast s e = true) (initNet o page) es)
    (y : Node) :
    es.countP (isHop y) ≤ Fintype.card Node * es.countP (isFault y) + es.countP isPublication := by
  obtain ⟨g, -, -, -, hcount⟩ : ∃ g : (Node → ℕ) × Node, Ranked g.1 g.2 s ∧ Flight s ∧ Once s y ∧
      left g.1 y s + es.countP (isHop y) ≤
        Fintype.card Node * es.countP (isFault y) + es.countP isPublication := by
    refine Network.run_history (R := fun s es => ∃ g : (Node → ℕ) × Node, Ranked g.1 g.2 s ∧
      Flight s ∧ Once s y ∧ left g.1 y s + es.countP (isHop y) ≤
        Fintype.card Node * es.countP (isFault y) + es.countP isPublication)
      ?_ ?_ hok hrun
    · rintro s es e s' ⟨g, h, hf, ho, hcount⟩ hok hstep
      refine ⟨nextRank g e, ranked_step hlist h hf hok hstep,
        flight_step (fun n m hm => (hlist n m).mp hm) hf hstep, once_step ho hstep, ?_⟩
      have hleft := left_step h ho hstep
      have hone : ∀ q : Event Node C → Bool,
          (es ++ [e]).countP q = es.countP q + (q e).toNat := by
        intro q
        cases hq : q e <;> simp [List.countP_append, hq]
      rw [hone, hone, hone, Nat.mul_add]
      omega
    · exact ⟨(fun n => if n = o then 1 else 0, o), ranked_initNet o page, flight_initNet o page,
        once_initNet o page y, by simp [left, initNet]⟩
  omega

/-! ## The page arrives -/

/-- The request of `y` is with a node, or `y` has the page after handling at most one message. -/
theorem asked_or_served (nodeList : Node → List Node) (ho : Once s y) : (∃ d, .askPage d y ∈ s.msgs) ∨
    ∃ es s', es.length ≤ 1 ∧ (∀ e ∈ es, isDelivery y e = true) ∧
      Network.run (step nodeList) s es = some s' ∧ (s'.node y).waits = false := by
  rcases once_iff.mp ho with ⟨hw, -⟩ | ⟨hw, hcount⟩
  · exact Or.inr ⟨[], s, by simp, by simp, rfl, hw⟩
  · obtain ⟨m, hm, hy⟩ := List.countP_pos_iff.mp (by omega : 0 < s.msgs.countP (Msg.isFor y))
    cases m with
    | invalidation d sender => cases hy
    | askPage d z =>
      obtain rfl : z = y := by simpa [Msg.isFor] using hy
      exact Or.inl ⟨d, hm⟩
    | recvPage d o page =>
      obtain rfl : d = y := by simpa [Msg.isFor] using hy
      have hstep := Network.step_deliver (P := protocol nodeList) hm rfl
      refine Or.inr ⟨[.deliver (.recvPage d o page)], _, by simp, by simp [isDelivery, Msg.isFor],
        Network.run_cons_eq_some.mpr ⟨_, hstep, rfl⟩, ?_⟩
      obtain ⟨b, st, -, heq⟩ := updatePage_eq (s.node d) o page
      simp only [protocol, Msg.dest, handle, Network.fire_node_self, heq]
      unfold Peer.waits
      split <;> rfl

/-- Handling the messages of the request alone brings the page. -/
theorem served (hlist : ∀ n m, m ∈ nodeList n ↔ m ≠ n) (k : ℕ) (h : Ranked g.1 g.2 s)
    (hf : Flight s) (ho : Once s y) (hk : left g.1 y s ≤ k) :
    ∃ es s', es.length ≤ k + 1 ∧ (∀ e ∈ es, isDelivery y e = true) ∧
      Network.run (step nodeList) s es = some s' ∧ (s'.node y).waits = false := by
  induction k generalizing s with
  | zero =>
    rcases asked_or_served nodeList ho with ⟨d, hm⟩ | hserved
    · -- a request in flight has a handler to go through
      have hle : hopsLeft g.1 y (.askPage d y : Msg Node C) ≤ left g.1 y s :=
        List.single_le_sum (fun _ _ => Nat.zero_le _) _ (List.mem_map_of_mem hm)
      simp [hopsLeft] at hle
      omega
    · exact hserved
  | succ k ih =>
    rcases asked_or_served nodeList ho with ⟨d, hm⟩ | ⟨es, s', hlen, hserved⟩
    · have hstep := Network.step_deliver (P := protocol nodeList) hm rfl
      have hleft := left_deliver (y := y) h hm
      have hhop : isHop y (.deliver (.askPage d y) : Event Node C) = true := by simp [isHop]
      rw [hhop, Bool.toNat_true] at hleft
      obtain ⟨es, t, hlen, hes, hrun, hw⟩ := ih
        (ranked_step hlist (e := .deliver (.askPage d y)) h hf rfl hstep)
        (flight_step (fun n m hm => (hlist n m).mp hm) hf hstep) (once_step ho hstep)
        (Nat.le_of_succ_le_succ (hleft.trans hk))
      exact ⟨.deliver (.askPage d y) :: es, t, by simpa using hlen,
        List.forall_mem_cons.mpr ⟨by simp [isDelivery, Msg.isFor], hes⟩,
        Network.run_cons_eq_some.mpr ⟨_, hstep, hrun⟩, hw⟩
    · exact ⟨es, s', by omega, hserved⟩

/-- A page that is asked for can always be delivered: in every state that is reached without a node
making itself the owner while an `INVALIDATION` to it is in flight, at most one handler for every
node and one more, each for a message of the request, bring the page to a thread that waits for it.
-/
theorem request_can_be_served (hlist : ∀ n m, m ∈ nodeList n ↔ m ≠ n) {o : Node} {page : Node → C}
    {es : List (Event Node C)} (hrun : Network.run (step nodeList) (initNet o page) es = some s)
    (hok : Network.Meets (step nodeList) (fun s e => publishesLast s e = true) (initNet o page) es)
    (y : Node) :
    ∃ es' s', es'.length ≤ Fintype.card Node + 1 ∧ (∀ e ∈ es', isDelivery y e = true) ∧
      Network.run (step nodeList) s es' = some s' ∧ (s'.node y).waits = false := by
  obtain ⟨g, h, hf⟩ : ∃ g : (Node → ℕ) × Node, Ranked g.1 g.2 s ∧ Flight s := by
    have h := Network.run_simulation (R := fun s g => Ranked g.1 g.2 s ∧ Flight s)
      (fun s g e s' h hok hstep => ⟨ranked_step hlist h.1 h.2 hok hstep,
        flight_step (fun n m hm => (hlist n m).mp hm) h.2 hstep⟩)
      (t := (fun n => if n = o then 1 else 0, o)) ⟨ranked_initNet o page, flight_initNet o page⟩
      hok hrun
    exact ⟨_, h⟩
  have ho : Once s y := Network.run_invariant (fun _ _ _ h _ hstep => once_step h hstep)
    (once_initNet o page y) (Network.meets_true _ _) hrun
  exact served hlist _ h hf ho (left_le_card ho)

end Hops

/-! ## Two writers -/

/-- `b` writes and only `a` hears of it, so that `c` asks `a` for the page. -/
def askLate (a b c : Node) (old new : C) : List (Event Node C) :=
  writeFrom b a old new ++ [.deliver (.invalidation a b), .act c (.lock .write), .act c .grant,
    .act c (.sigsevHandler true)]

theorem request_in_flight_once_askLate :
    ∃ s, Network.run (step fun n => [n + 1, n + 2]) (initNet 0 fun _ => 0)
        (askLate (0 : Fin 3) 1 2 0 5) = some s ∧
      (((s.node 2).waits = false ∧ s.msgs.countP (Msg.isFor 2) = 0) ∨
        ((s.node 2).waits = true ∧ s.msgs.countP (Msg.isFor 2) = 1)) := by
  have hrun : Network.run (step fun n => [n + 1, n + 2]) (initNet 0 fun _ => 0)
    (askLate (0 : Fin 3) 1 2 0 5) = some _ := rfl
  exact ⟨_, hrun, request_in_flight_once hrun 2⟩

/-- `a` passes the request on. -/
def passedOn (a b c : Node) (old new : C) : List (Event Node C) :=
  askLate a b c old new ++ [.deliver (.askPage a c)]

theorem hops_bounded_passedOn :
    ∃ s, Network.run (step fun n => [n + 1, n + 2]) (initNet 0 fun _ => 0)
        (passedOn (0 : Fin 3) 1 2 0 5) = some s ∧
      (passedOn (0 : Fin 3) 1 2 0 5).countP (isHop 2) ≤
        Fintype.card (Fin 3) * (passedOn (0 : Fin 3) 1 2 0 5).countP (isFault 2) +
          (passedOn (0 : Fin 3) 1 2 0 5).countP isPublication := by
  have hrun : Network.run (step fun n => [n + 1, n + 2]) (initNet 0 fun _ => 0)
    (passedOn (0 : Fin 3) 1 2 0 5) = some _ := rfl
  exact ⟨_, hrun, hops_bounded (by decide) hrun (by decide) 2⟩

theorem request_can_be_served_askLate :
    ∃ s es' s', Network.run (step fun n => [n + 1, n + 2]) (initNet 0 fun _ => 0)
        (askLate (0 : Fin 3) 1 2 0 5) = some s ∧
      Network.run (step fun n => [n + 1, n + 2]) s es' = some s' ∧ (s'.node 2).waits = false := by
  have hrun : Network.run (step fun n => [n + 1, n + 2]) (initNet 0 fun _ => 0)
    (askLate (0 : Fin 3) 1 2 0 5) = some _ := rfl
  obtain ⟨es', s', -, -, hrun', hw⟩ := request_can_be_served (by decide) hrun (by decide) 2
  exact ⟨_, es', s', hrun, hrun', hw⟩

end DataTransfer
