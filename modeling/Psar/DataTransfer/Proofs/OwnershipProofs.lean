import Psar.DataTransfer.Ownership
import Psar.DataTransfer.Proofs.PageProofs
import Psar.Library.Proofs.PointersProofs

/-!
# Proofs: the owner of the page

As long as no node makes itself the owner while an invalidation to it is in flight, every pointer
and every message leads to a higher rank, so that the pointers lead to the last owner.
-/

namespace DataTransfer

variable {Node C : Type} [DecidableEq Node]

/-! ## Invalidations in flight -/

theorem invalidated_iff {s : Net Node C} {n : Node} :
    invalidated s n = true ↔ ∃ y, Msg.invalidation n y ∈ s.msgs := by
  rw [invalidated, List.any_eq_true]
  constructor
  · rintro ⟨m, hm, hd⟩
    cases m with
    | invalidation d y =>
      obtain rfl : d = n := by simpa using hd
      exact ⟨y, hm⟩
    | _ => simp at hd
  · rintro ⟨y, hy⟩
    exact ⟨_, hy, by simp⟩

/-- An invalidation in flight stays there unless it is handled. -/
theorem invalidated_fire {s : Net Node C} {n i : Node} {ms rest : List (Msg Node C)}
    (hp : s.msgs.Perm (ms ++ rest)) (h : invalidated s n = true)
    (hms : ∀ y, Msg.invalidation n y ∉ ms) (r : Peer Node C × List (Msg Node C)) :
    invalidated (s.fire i rest r) n = true := by
  obtain ⟨y, hy⟩ := invalidated_iff.mp h
  refine invalidated_iff.mpr ⟨y, List.mem_append_left _ ?_⟩
  rcases List.mem_append.mp (hp.subset hy) with hy | hy
  · exact absurd hy (hms y)
  · exact hy

/-! ## Requests and answers in flight -/

theorem pendingOf_le (y n : Node) (p : Peer Node C) : pendingOf y n p ≤ if n = y then 1 else 0 := by
  by_cases hn : n = y
  · simp only [pendingOf, hn, true_and, if_true]
    split <;> omega
  · simp [pendingOf, hn]

theorem pendingOf_of_not_waits {y n : Node} {p : Peer Node C} (h : p.waits = false) :
    pendingOf y n p = if n = y then 1 else 0 := by
  simp [pendingOf, h]

/-- An action leaves the owner pointer alone and sends no message, unless it asks for the page or
publishes it. -/
theorem act_cases [DecidableEq C] {nodeList : List Node} {i : Node} {p : Peer Node C} {a : Action C}
    {r : Peer Node C × List (Msg Node C)} (h : act nodeList i p a = some r) :
    (a ≠ .publish ∧ p.waits = false ∧ r.1.owner = p.owner ∧ r.2 = []) ∨
    (a ≠ .publish ∧ p.waits = false ∧ r.1.owner = p.owner ∧ p.owner ≠ i ∧ r.1.waits = true ∧
      r.2 = [.askPage p.owner i]) ∨
    (a = .publish ∧ p.waits = false ∧ r.1.owner = i ∧ r.2 = sendInvalidation i nodeList) := by
  cases a with
  | lock k =>
    obtain ⟨p', hp', rfl⟩ := Option.map_eq_some_iff.mp h
    obtain ⟨hth, ⟨-, rfl⟩ | ⟨-, rfl⟩⟩ := lock_cases hp' <;>
      exact Or.inl ⟨by simp, by simp [Peer.waits, hth], rfl, rfl⟩
  | grant =>
    obtain ⟨p', hp', rfl⟩ := Option.map_eq_some_iff.mp h
    obtain ⟨hth, rfl⟩ := grant_eq_some hp'
    exact Or.inl ⟨by simp, by simp [Peer.waits, hth], rfl, rfl⟩
  | unlock =>
    obtain ⟨p', hp', rfl⟩ := Option.map_eq_some_iff.mp h
    obtain ⟨hth, -, rfl⟩ := unlock_eq_some hp'
    exact Or.inl ⟨by simp, by simp [Peer.waits, hth], rfl, rfl⟩
  | sigsevHandler writing =>
    obtain ⟨hth, -, -, ⟨-, rfl⟩ | ⟨ho, -, rfl⟩⟩ := sigsevHandler_cases h
    · exact Or.inl ⟨by simp, by simp [Peer.waits, hth], rfl, rfl⟩
    · exact Or.inr (Or.inl ⟨by simp, by simp [Peer.waits, hth], rfl, ho, rfl, rfl⟩)
  | wake =>
    obtain ⟨p', hp', rfl⟩ := Option.map_eq_some_iff.mp h
    obtain ⟨writing, hth, hpred, rfl⟩ := wake_eq_some hp'
    exact Or.inl ⟨by simp, by simp [Peer.waits, hth, hpred], rfl, rfl⟩
  | protect =>
    obtain ⟨p', hp', rfl⟩ := Option.map_eq_some_iff.mp h
    rcases protect_cases hp' with ⟨hth, -, rfl⟩ | ⟨writing, hth, rfl⟩ <;>
      exact Or.inl ⟨by simp, by simp [Peer.waits, hth], rfl, rfl⟩
  | publish =>
    obtain ⟨hth, rfl⟩ := publish_eq_some h
    exact Or.inr (Or.inr ⟨rfl, by simp [Peer.waits, hth], rfl, rfl⟩)
  | write page =>
    obtain ⟨p', hp', rfl⟩ := Option.map_eq_some_iff.mp h
    obtain ⟨hth, -, -, rfl⟩ := write_eq_some hp'
    exact Or.inl ⟨by simp, by simp [Peer.waits, hth], rfl, rfl⟩
  | read page =>
    obtain ⟨p', hp', rfl⟩ := Option.map_eq_some_iff.mp h
    obtain ⟨hth, -, -, -, rfl⟩ := read_eq_some hp'
    exact Or.inl ⟨by simp, by simp [Peer.waits, hth], rfl, rfl⟩

section Flight

variable [Fintype Node] {s s' : Net Node C}

/-- A node with a request or an answer in flight waits for the page. -/
theorem Flight.waits_of_mem (h : Flight s) {m : Msg Node C} (hm : m ∈ s.msgs) {y : Node}
    (hy : pendingMsg y m = 1) : (s.node y).waits = true := by
  by_contra hw
  have h1 := Network.le_weight_msg (pendingOf y) (pendingMsg y) s y hm
  have h2 := h.pending y
  rw [pendingOf_of_not_waits (by simpa using hw)] at h1
  simp only [if_true] at h1
  omega

theorem Flight.move (h : Flight s) {i : Node} {ms rest : List (Msg Node C)}
    {r : Peer Node C × List (Msg Node C)} (hp : s.msgs.Perm (ms ++ rest))
    (hinv : ∀ d y, Msg.invalidation d y ∈ r.2 → y ≠ d)
    (hpend : ∀ y, pendingOf y i r.1 + (r.2.map (pendingMsg y)).sum ≤
      pendingOf y i (s.node i) + (ms.map (pendingMsg y)).sum) : Flight (s.fire i rest r) := by
  constructor
  · intro d y hm
    rcases List.mem_append.mp hm with hm | hm
    · exact h.invalidation d y (hp.symm.subset (List.mem_append_right _ hm))
    · exact hinv d y hm
  · intro y
    have h1 := Network.weight_fire (pendingOf y) (pendingMsg y) hp r (i := i)
    have h2 := hpend y
    have h3 := h.pending y
    omega

variable [DecidableEq C] {nodeList : Node → List Node}

theorem flight_step (hlist : ∀ n m, m ∈ nodeList n → m ≠ n) {e : Event Node C} (h : Flight s)
    (hstep : step nodeList s e = some s') : Flight s' := by
  rcases step_cases hstep with ⟨i, a, r, rfl, hr, rfl⟩ | ⟨m, rfl, hm, rfl⟩
  · refine h.move (Network.perm_act _) ?_ ?_
    · rcases act_cases hr with ⟨-, -, -, hmsgs⟩ | ⟨-, -, -, -, -, hmsgs⟩ | ⟨-, -, -, hmsgs⟩
      · simp [hmsgs]
      · simp [hmsgs]
      · intro d y hm
        rw [hmsgs] at hm
        obtain ⟨n, hn, heq⟩ := mem_sendInvalidation.mp hm
        cases heq
        exact (hlist i d hn).symm
    · intro y
      -- the node counted before the step, since it did not wait
      have hle := pendingOf_le y i r.1
      rcases act_cases hr with ⟨-, hw, -, hmsgs⟩ | ⟨-, hw, -, -, hw', hmsgs⟩ | ⟨-, hw, -, hmsgs⟩
      · rw [pendingOf_of_not_waits hw, hmsgs]
        simpa using hle
      · rw [pendingOf_of_not_waits hw, hmsgs]
        simp [pendingOf, hw', pendingMsg]
      · rw [pendingOf_of_not_waits hw, hmsgs]
        simpa [sendInvalidation, pendingMsg, Function.comp_def] using hle
  · cases m with
    | invalidation d sender =>
      exact h.move (Network.perm_deliver hm) (by simp [handle]) fun y => le_rfl
    | askPage d z =>
      refine h.move (Network.perm_deliver hm) ?_ fun y => ?_ <;>
        rcases askPageHandler_cases d (s.node d) z with ⟨-, b, -, heq⟩ | ⟨-, heq⟩ <;>
        simp only [handle, Msg.dest, heq]
      · simp
      · simp
      · exact le_rfl
      · exact le_rfl
    | recvPage d o page =>
      refine h.move (Network.perm_deliver hm) (by simp [handle]) ?_
      intro y
      have hle := pendingOf_le y d (updatePage (s.node d) o page)
      simp only [handle, Msg.dest, pendingMsg, List.map_cons, List.map_nil, List.sum_cons,
        List.sum_nil]
      omega

omit [DecidableEq C] in
theorem flight_initNet (o : Node) (page : Node → C) : Flight (initNet o page) := by
  refine ⟨by simp [initNet], ?_⟩
  intro y
  have hle : ∑ n, pendingOf y n ((initNet o page).node n) ≤ ∑ n, if n = y then 1 else 0 :=
    Finset.sum_le_sum fun n _ => pendingOf_le y n _
  simpa [Network.Net.weight, initNet] using hle

end Flight

/-! ## Ranks -/

section Rank

variable {rank : Node → ℕ} {c : Node} {s s' : Net Node C}

/-- The node of highest rank takes itself for the owner. -/
theorem Ranked.root (h : Ranked rank c s) : owners s c = c := by
  by_contra hc
  have h1 := h.owner c hc
  have h2 := h.top (owners s c) hc
  omega

theorem Ranked.le (h : Ranked rank c s) (n : Node) : rank n ≤ rank c := by
  by_cases hn : n = c
  · rw [hn]
  · exact (h.top n hn).le

/-- A step other than a publication: the pointer of the node stays or goes up in rank, and so do the
messages sent. -/
theorem Ranked.move (h : Ranked rank c s) {i : Node} {ms rest : List (Msg Node C)}
    {r : Peer Node C × List (Msg Node C)} (hp : s.msgs.Perm (ms ++ rest))
    (hdest : ∀ m ∈ ms, m.dest = i)
    (howner : (r.1.owner = (s.node i).owner ∧ ∀ y, Msg.invalidation i y ∉ ms) ∨
      rank i < rank r.1.owner)
    (hmsgs : ∀ m ∈ r.2, RankedMsg rank m) : Ranked rank c (s.fire i rest r) := by
  refine ⟨h.top, ?_, ?_, Network.forall_msgs_fire h.msgs hp hmsgs⟩
  · refine Network.forall_node_fire
      (L := fun n (p : Peer Node C) => p.owner ≠ n → rank n < rank p.owner) h.owner ?_
    intro hne
    rcases howner with ⟨ho, -⟩ | ho
    · rw [ho] at hne ⊢
      exact h.owner i hne
    · exact ho
  · intro n hn hnc
    by_cases hni : n = i
    · subst hni
      have hself : r.1.owner = n := by simpa [owners] using hn
      rcases howner with ⟨ho, hms⟩ | ho
      · exact invalidated_fire hp (h.self n (ho.symm.trans hself) hnc) hms r
      · exact absurd ho (by simp [hself])
    · have hself : owners s n = n := by
        simpa [owners, Network.fire_node_ne s rest r hni] using hn
      exact invalidated_fire hp (h.self n hself hnc) (fun y hy => hni (hdest _ hy)) r

/-- A publication by a node to which no invalidation is in flight: it gets the highest rank, and
everybody else is told. -/
theorem Ranked.publish [Fintype Node] (h : Ranked rank c s) (hf : Flight s) {nodeList : List Node}
    {i : Node} (hlist : ∀ m, m ∈ nodeList ↔ m ≠ i) (hok : invalidated s i = false)
    (hw : (s.node i).waits = false) {r : Peer Node C × List (Msg Node C)} (howner : r.1.owner = i)
    (hmsgs : r.2 = sendInvalidation i nodeList) :
    Ranked (Function.update rank i (rank c + 1)) i (s.fire i s.msgs r) := by
  have htop : ∀ n, n ≠ i → Function.update rank i (rank c + 1) n <
      Function.update rank i (rank c + 1) i := by
    intro n hn
    rw [Function.update_of_ne hn, Function.update_self]
    exact Nat.lt_succ_of_le (h.le n)
  -- whatever led from `n ≠ i` to a higher rank still does
  have hup : ∀ n m, n ≠ i → rank n < rank m → Function.update rank i (rank c + 1) n <
      Function.update rank i (rank c + 1) m := by
    intro n m hn hlt
    by_cases hm : m = i
    · rw [hm]
      exact htop n hn
    · rwa [Function.update_of_ne hn, Function.update_of_ne hm]
  have hidle : ∀ m ∈ s.msgs, pendingMsg i m ≠ 1 := fun m hm hpend => by
    simp [hf.waits_of_mem hm hpend] at hw
  refine ⟨htop, ?_, ?_, ?_⟩
  · intro n hn
    by_cases hni : n = i
    · exact absurd (by simp [hni, owners, howner]) hn
    · have hsame : owners (s.fire i s.msgs r) n = owners s n := by
        simp only [owners, Network.fire_node_ne s s.msgs r hni]
      rw [hsame] at hn ⊢
      exact hup n _ hni (h.owner n hn)
  · intro n _ hni
    refine invalidated_iff.mpr ⟨i, List.mem_append_right _ ?_⟩
    rw [hmsgs]
    exact mem_sendInvalidation.mpr ⟨n, (hlist n).mpr hni, rfl⟩
  · refine Network.forall_msgs_fire (fun m hm => ?_) (Network.perm_act _) ?_
    · have hmsg := h.msgs m hm
      cases m with
      | invalidation d y =>
        refine hup d y (fun hd => ?_) hmsg
        have hinv := invalidated_iff.mpr ⟨y, hm⟩
        rw [hd, hok] at hinv
        cases hinv
      | askPage d y => exact hup y d (fun hy => hidle _ hm (by simp [pendingMsg, hy])) hmsg
      | recvPage d o page => exact hup d o (fun hd => hidle _ hm (by simp [pendingMsg, hd])) hmsg
    · intro m hm
      rw [hmsgs] at hm
      obtain ⟨n, hn, rfl⟩ := mem_sendInvalidation.mp hm
      exact htop n ((hlist n).mp hn)

variable [Fintype Node] [DecidableEq C] {nodeList : Node → List Node}

theorem ranked_step (hlist : ∀ n m, m ∈ nodeList n ↔ m ≠ n) {g : (Node → ℕ) × Node}
    {e : Event Node C} (h : Ranked g.1 g.2 s) (hf : Flight s) (hok : publishesLast s e = true)
    (hstep : step nodeList s e = some s') : Ranked (nextRank g e).1 (nextRank g e).2 s' := by
  rcases step_cases hstep with ⟨i, a, r, rfl, hr, rfl⟩ | ⟨m, rfl, hm, rfl⟩
  · have hother : a ≠ .publish → nextRank g (.act i a : Event Node C) = g := by
      intro ha
      cases a <;> first | rfl | exact absurd rfl ha
    rcases act_cases hr with ⟨ha, -, ho, hmsgs⟩ | ⟨ha, -, ho, hne, -, hmsgs⟩ | ⟨rfl, hw, ho, hmsgs⟩
    · rw [hother ha]
      exact h.move (Network.perm_act _) (by simp) (Or.inl ⟨ho, by simp⟩) (by simp [hmsgs])
    · rw [hother ha]
      refine h.move (Network.perm_act _) (by simp) (Or.inl ⟨ho, by simp⟩) ?_
      simpa [hmsgs, RankedMsg, owners] using h.owner i hne
    · exact h.publish hf (hlist i) (by simpa [publishesLast] using hok) hw ho hmsgs
  · have hmsg := h.msgs m hm
    cases m with
    | invalidation d sender =>
      exact h.move (Network.perm_deliver hm) (by simp) (Or.inr hmsg) (by simp [handle])
    | askPage d y =>
      refine h.move (Network.perm_deliver hm) (by simp) (Or.inl ⟨?_, by simp⟩) ?_ <;>
        rcases askPageHandler_cases d (s.node d) y with ⟨-, b, -, heq⟩ | ⟨ho, heq⟩ <;>
        simp only [handle, Msg.dest, heq]
      · simpa [RankedMsg] using hmsg
      · simpa [RankedMsg, owners] using lt_trans hmsg (h.owner d ho)
    | recvPage d o page =>
      obtain ⟨b, st, -, heq⟩ := updatePage_eq (s.node d) o page
      refine h.move (Network.perm_deliver hm) (by simp) (Or.inr ?_) (by simp [handle])
      simpa [handle, Msg.dest, heq, RankedMsg] using hmsg

omit [Fintype Node] [DecidableEq C] in
theorem ranked_initNet (o : Node) (page : Node → C) :
    Ranked (fun n => if n = o then 1 else 0) o (initNet o page) := by
  have howner : ∀ n, owners (initNet o page) n = o := fun n => by
    by_cases hn : n = o <;> simp [owners, initNet, initDataTransfer, hn]
  refine ⟨fun n hn => by simp [hn], ?_, ?_, by simp [initNet]⟩
  · intro n hn
    rw [howner n] at hn ⊢
    simp [Ne.symm hn]
  · intro n hn hno
    rw [howner n] at hn
    exact absurd hn.symm hno

/-- One owner: in every run in which no node makes itself the owner of the page while an
`INVALIDATION` to it is in flight, as soon as no `INVALIDATION` and no `RECV_PAGE` is in flight
exactly one node is its own owner, and following the owner pointers leads from every node to it. -/
theorem owner_unique (hlist : ∀ n m, m ∈ nodeList n ↔ m ≠ n) {o : Node} {page : Node → C}
    {es : List (Event Node C)} (hrun : Network.run (step nodeList) (initNet o page) es = some s)
    (hok : Network.Meets (step nodeList) (fun s e => publishesLast s e = true) (initNet o page) es)
    (hset : settled s = true) : ∃ c, Pointers.Root (owners s) (fun _ => True) c := by
  obtain ⟨rank, c, h⟩ : ∃ rank c, Ranked rank c s := by
    have h := Network.run_simulation (R := fun s g => Ranked g.1 g.2 s ∧ Flight s)
      (fun s g e s' h hok hstep => ⟨ranked_step hlist h.1 h.2 hok hstep,
        flight_step (fun n m hm => (hlist n m).mp hm) h.2 hstep⟩)
      (t := (fun n => if n = o then 1 else 0, o)) ⟨ranked_initNet o page, flight_initNet o page⟩
      hok hrun
    exact ⟨_, _, h.1⟩
  have hself : ∀ n, owners s n = n → n = c := by
    intro n hn
    by_contra hnc
    obtain ⟨y, hy⟩ := invalidated_iff.mp (h.self n hn hnc)
    simpa using List.all_eq_true.mp hset _ hy
  refine ⟨c, trivial, h.root, fun n _ hn => hself n hn, ?_⟩
  intro n _
  exact Pointers.leads_of_rank h.le (fun m hm => h.owner m fun hown => hm (hself m hown)) n

end Rank

/-- The node `i` takes the lock to write and finds no valid copy: it asks `j` for the page, becomes
the owner and writes. -/
def writeFrom (i j : Node) (old new : C) : List (Event Node C) :=
  [.act i (.lock .write), .act i .grant, .act i (.sigsevHandler true), .deliver (.askPage j i),
    .deliver (.recvPage i j old), .act i .wake, .act i .protect, .act i .publish,
    .act i (.write new), .act i .unlock]

/-- The node 1 writes, and the node 0, which was the owner, learns of it. -/
theorem owner_unique_write :
    ∃ s, Network.run (step fun n => [n + 1]) (initNet 0 fun _ => 0)
        (writeFrom (1 : Fin 2) 0 0 5 ++ [.deliver (.invalidation 0 1)]) = some s ∧ settled s = true ∧
      ∃ c, Pointers.Root (owners s) (fun _ => True) c := by
  have hrun : Network.run (step fun n => [n + 1]) (initNet 0 fun _ => 0)
      (writeFrom (1 : Fin 2) 0 0 5 ++ [.deliver (.invalidation 0 1)]) = some _ := rfl
  exact ⟨_, hrun, by decide, owner_unique (by decide) hrun (by decide) (by decide)⟩

/-- The owner `i` writes `x` and then the node `j` writes `y`, and both invalidations are handled
last. -/
def crossedRun (i j : Node) (x y : C) : List (Event Node C) :=
  [.act i (.lock .write), .act i .grant, .act i (.sigsevHandler true), .act i .protect,
    .act i .publish, .act i (.write x), .act i .unlock] ++ writeFrom j i x y ++
    [.deliver (.invalidation i j), .deliver (.invalidation j i)]

/-- When the invalidations of two writers cross, each node points to the other one. -/
theorem owner_pointers_cycle :
    ∃ s, Network.run (step fun n => [n + 1]) (initNet 0 fun _ => 0)
        (crossedRun (0 : Fin 2) 1 5 6) = some s ∧
      Network.Meets (step fun n => [n + 1]) (fun s e => exclusive s e = true)
        (initNet 0 fun _ => 0) (crossedRun (0 : Fin 2) 1 5 6) ∧
      settled s = true ∧ ¬ ∃ c, Pointers.Root (owners s) (fun _ => True) c := by
  have hrun : Network.run (step fun n => [n + 1]) (initNet 0 fun _ => 0)
      (crossedRun (0 : Fin 2) 1 5 6) = some _ := rfl
  exact ⟨_, hrun, by decide, by decide, Pointers.not_exists_root (by decide)⟩

end DataTransfer
