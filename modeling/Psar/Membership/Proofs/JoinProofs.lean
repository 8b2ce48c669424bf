import Psar.Membership.Proofs.MoveProofs

/-!
# Proofs: agreement on the members

A handler that begins its loop finds the list of its node complete, because no other handler is in
its loop and no entry is on its way to the node; so every member learns of the new node once, and
the new node of every member.
-/

namespace Membership

variable {Node : Type} [DecidableEq Node]

/-! ## Facts about the invariant -/

section Facts

variable [Fintype Node] {S : Finset Node} {l : Node} {gone : Finset Node} {s : Net Node}

omit [DecidableEq Node] [Fintype Node] in
theorem Handler.waits_le_busy (h : Handler Node) : h.waits ≤ h.busy.toNat := by
  obtain ⟨joiner, stage⟩ := h
  cases stage <;> simp [Handler.waits, Handler.busy]

theorem Inv.ack_le_one (h : Inv S l gone s) : s.weight ackAt ackMsg ≤ 1 := by
  have hle : s.weight waitsAt (fun _ => 0) ≤ s.weight busyAt fun _ => 0 := by
    apply Network.weight_mono
    intro i p
    cases p with
    | none => exact le_refl _
    | some p => exact List.sum_le_sum fun h _ => Handler.waits_le_busy h
  have h1 := h.ack
  have h2 := h.busy
  omega

omit [Fintype Node] in
theorem newNodeMsg_le (n : Node) (ms : List (Msg Node)) :
    (ms.map (newNodeMsg n)).sum ≤ (ms.map ackMsg).sum := by
  apply List.sum_le_sum
  intro m _
  cases m with
  | newNode d c n' =>
    simp only [newNodeMsg, ackMsg]
    split <;> omega
  | _ => exact Nat.zero_le _

/-- While `acked` is set somewhere, neither `NEW_NODE` nor `ACK_NODE` is in flight. -/
theorem Inv.acks_of_acked (h : Inv S l gone s) {i : Node} {p : Peer Node} (hi : s.node i = some p)
    (hacked : p.acked = true) : (s.msgs.map ackMsg).sum = 0 := by
  have h1 := Network.le_weight_msgs ackAt ackMsg s i
  have h2 := h.ack_le_one
  rw [hi] at h1
  simp only [ackAt, hacked, Bool.toNat_true] at h1
  omega

/-- While `ACK_NODE` is in flight, `acked` is not set. -/
theorem Inv.acked_of_msg (h : Inv S l gone s) {m : Msg Node} (hm : m ∈ s.msgs) (hw : ackMsg m = 1)
    {i : Node} {p : Peer Node} (hi : s.node i = some p) : p.acked = false := by
  have h1 := Network.le_weight_msg ackAt ackMsg s i hm
  have h2 := h.ack_le_one
  rw [hi, hw] at h1
  cases hacked : p.acked with
  | false => rfl
  | true =>
    simp only [ackAt, hacked, Bool.toNat_true] at h1
    omega

/-- A node that has not started is no member. -/
theorem Inv.notMem_of_none (h : Inv S l gone s) {i : Node} (hi : s.node i = none) : i ∉ S := by
  intro hS
  have h1 := Network.le_weight_node (earlyAt i) (earlyMsg i) s i
  have h2 := h.early i
  rw [hi] at h1
  simp only [earlyAt, if_true, if_pos hS] at h1 h2
  omega

/-- A node with `in_dsm` is a member, and no `INFO_DSM` is on its way to it. -/
theorem Inv.mem_of_inDsm (h : Inv S l gone s) {i : Node} {p : Peer Node} (hi : s.node i = some p)
    (hdsm : p.inDsm = true) : i ∈ S ∧ ∀ c k nodes, Msg.infoDSM i c k nodes ∉ s.msgs := by
  have h2 := h.phase i
  constructor
  · by_contra hS
    have h1 := Network.le_weight_node (phaseAt i) (phaseMsg i) s i
    rw [hi] at h1
    simp only [phaseAt, hdsm, if_true, Bool.toNat_true, if_neg hS] at h1 h2
    omega
  · intro c k nodes hm
    have h1 := Network.le_weight_msg (phaseAt i) (phaseMsg i) s i hm
    rw [hi] at h1
    simp only [phaseAt, phaseMsg, hdsm, if_true, Bool.toNat_true] at h1
    split at h2 <;> omega

/-- `INFO_DSM` is on its way only to a node without `in_dsm`. -/
theorem Inv.inDsm_of_info (h : Inv S l gone s) {i c : Node} {k : ℕ} {nodes : List Node}
    (hm : Msg.infoDSM i c k nodes ∈ s.msgs) {p : Peer Node} (hi : s.node i = some p) :
    p.inDsm = false := by
  cases hdsm : p.inDsm with
  | false => rfl
  | true => exact absurd hm ((h.mem_of_inDsm hi hdsm).2 c k nodes)

omit [DecidableEq Node] [Fintype Node] in
/-- A handler that holds `umtx` is inside the critical section. -/
theorem inCS_of_busy {p : Peer Node} {h : Handler Node} (hh : h ∈ p.handlers)
    (hb : h.busy = true) : inCS p = true := by
  have hin : h.inside = true := by
    obtain ⟨joiner, stage⟩ := h
    cases stage <;> first | rfl | cases hb
  simp only [inCS, Bool.or_eq_true, List.any_eq_true]
  exact Or.inl ⟨h, hh, hin⟩

/-- While a node is inside and its `umtx` is free, no handler holds `umtx` anywhere. -/
theorem Inv.not_busy (h : Inv S l gone s) {i : Node} {p : Peer Node} (hi : s.node i = some p)
    (hcs : inCS p = true) (hfree : ∀ x ∈ p.handlers, x.busy = false) :
    ∀ j, ∀ q ∈ s.node j, ∀ x ∈ q.handlers, x.busy = false := by
  intro j q hq x hx
  by_contra hne
  have hb : x.busy = true := by simpa using hne
  obtain rfl := h.cs i j p hi q hq hcs (inCS_of_busy hx hb)
  rw [hi] at hq
  cases hq
  exact hne (hfree x hx)

omit [DecidableEq Node] in
/-- A weight of handlers that hold `umtx`, while there is none. -/
theorem sum_of_not_busy (hnone : ∀ j, ∀ q ∈ s.node j, ∀ x ∈ q.handlers, x.busy = false)
    {f : Node → Option (Peer Node) → ℕ} (hf : ∀ j, f j none = 0)
    (hf' : ∀ j q, (∀ x ∈ q.handlers, x.busy = false) → f j (some q) = 0) :
    s.weight f (fun _ => 0) = 0 := by
  have hzero : ∀ j, f j (s.node j) = 0 := by
    intro j
    cases hj : s.node j with
    | none => exact hf j
    | some q => exact hf' j q (hnone j q hj)
  simp [Network.Net.weight, hzero]

omit [DecidableEq Node] in
theorem weight_waits_of_not_busy (hnone : ∀ j, ∀ q ∈ s.node j, ∀ x ∈ q.handlers, x.busy = false) :
    s.weight waitsAt (fun _ => 0) = 0 := by
  refine sum_of_not_busy hnone (fun _ => rfl) ?_
  intro j q hq
  apply List.sum_eq_zero
  intro n hn
  obtain ⟨x, hx, rfl⟩ := List.mem_map.mp hn
  have hle := Handler.waits_le_busy x
  rw [hq x hx] at hle
  exact Nat.le_zero.mp hle

/-- The list of a node that is inside, with its `umtx` free and `in_dsm` set, is complete. -/
theorem Inv.count_nodeList (h : Inv S l gone s) {i : Node} {p : Peer Node} (hi : s.node i = some p)
    (hcs : inCS p = true) (hfree : ∀ x ∈ p.handlers, x.busy = false) (hdsm : p.inDsm = true)
    (hl : gone = ∅ ∨ i = l) (b : Node) :
    p.nodeList.count b = if b ∈ S ∧ i ≠ b then 1 else 0 := by
  have hnone := h.not_busy hi hcs hfree
  obtain ⟨hiS, hinfo⟩ := h.mem_of_inDsm hi hdsm
  -- no entry is on its way to `i`
  have hack : (s.msgs.map ackMsg).sum = 0 := by
    have h1 := h.ack
    have h2 := weight_waits_of_not_busy hnone
    have h3 := Network.le_weight_msgs ackAt ackMsg s i
    omega
  have hmsgs : ∀ b, (s.msgs.map (entriesMsg i b)).sum = 0 := by
    intro b
    apply List.sum_eq_zero
    intro n hn
    obtain ⟨m, hm, rfl⟩ := List.mem_map.mp hn
    cases m with
    | newNode d c n' =>
      have hle := List.single_le_sum (fun _ _ => Nat.zero_le _) _
        (List.mem_map_of_mem (f := ackMsg) hm)
      simp only [ackMsg] at hle
      omega
    | infoDSM d c k nodes =>
      have hd : d ≠ i := by
        rintro rfl
        exact hinfo c k nodes hm
      simp [entriesMsg, hd]
    | _ => rfl
  have hnodes : ∀ b j, entriesAt i b j (s.node j) = if j = i then p.nodeList.count b else 0 := by
    intro b j
    by_cases hj : j = i
    · subst hj
      simp [hi, entriesAt, sum_owed_of_not_busy hfree]
    · cases hq : s.node j with
      | none => simp [entriesAt, hj]
      | some q => simp [entriesAt, hj, sum_owed_of_not_busy (hnone j q hq)]
  have hweight : ∀ b, s.weight (entriesAt i b) (entriesMsg i b) = p.nodeList.count b := by
    intro b
    simp [Network.Net.weight, hmsgs b, hnodes b]
  have hpair := h.pair i b
  rw [hweight, target, if_pos hiS] at hpair
  -- the node has not removed the leaver itself
  have hgone : ¬ (b = l ∧ i ∈ gone) := by
    rintro ⟨rfl, hg⟩
    rcases hl with hempty | rfl
    · rw [hempty] at hg
      cases hg
    · rw [if_pos ⟨rfl, hg⟩, if_neg (by simp)] at hpair
      omega
  rw [if_neg hgone] at hpair
  exact hpair

/-- The node whose handler waits for `umtx` at `i` is no member yet, and `i` is its only contact. -/
theorem Inv.contact_of_lock (h : Inv S l gone s) {i j : Node} {p : Peer Node}
    (hi : s.node i = some p) (hh : ⟨j, .lockUmtx⟩ ∈ p.handlers) :
    j ∉ S ∧ ∀ b, s.weight (contactAt j b) (contactMsg j b) = if i = b then 1 else 0 := by
  have hearly : 1 ≤ earlyAt j i (s.node i) := by
    rw [hi]
    simp only [earlyAt, sum_erase hh (Handler.early j), Handler.early, if_true]
    omega
  have hle := Network.le_weight_node (earlyAt j) (earlyMsg j) s i
  have hweight := h.early j
  have hj : j ∉ S := by
    intro hS
    rw [if_pos hS] at hweight
    omega
  refine ⟨hj, ?_⟩
  rw [if_neg hj] at hweight
  have hself : 1 ≤ s.weight (contactAt j i) (contactMsg j i) := by
    have h1 := Network.le_weight_node (contactAt j i) (contactMsg j i) s i
    have h2 : contactAt j i i (s.node i) = earlyAt j i (s.node i) := by
      rw [hi]
      simp [contactAt, earlyAt]
    omega
  intro b
  by_cases hib : i = b
  · subst hib
    have hself' : s.weight (contactAt j i) (contactMsg j i) ≤ s.weight (earlyAt j) (earlyMsg j) := by
      apply Network.weight_le
      · intro k
        cases s.node k with
        | none => exact Nat.zero_le _
        | some q =>
          simp only [contactAt, earlyAt]
          split <;> omega
      · intro m _
        cases m with
        | joinDSM d c =>
          simp only [contactMsg, earlyMsg]
          split <;> simp_all
        | _ => exact le_refl _
    rw [if_pos rfl]
    omega
  · -- the requests of `j` to two contacts are counted apart
    have hpair : s.weight (contactAt j i) (contactMsg j i) +
        s.weight (contactAt j b) (contactMsg j b) ≤ s.weight (earlyAt j) (earlyMsg j) := by
      rw [← Network.weight_add]
      apply Network.weight_le
      · intro k
        cases s.node k with
        | none => exact Nat.zero_le _
        | some q =>
          by_cases hki : k = i
          · subst hki
            simp [contactAt, earlyAt, hib]
          · simp only [contactAt, earlyAt, if_neg hki]
            split <;> omega
      · intro m _
        cases m with
        | joinDSM d c =>
          by_cases hdi : d = i
          · subst hdi
            simp only [contactMsg, earlyMsg, hib, and_false, if_false, and_true]
            exact le_refl _
          · simp only [contactMsg, earlyMsg, hdi, and_false, if_false]
            split <;> simp_all
        | _ => exact le_refl _
    rw [if_neg hib]
    omega

end Facts

/-! ## Steps -/

section Steps

variable [Fintype Node] {S : Finset Node} {l : Node} {gone : Finset Node} {s s' : Net Node}

omit [Fintype Node] in
/-- What the lists lack when `j` becomes a member through `i`: `i` and all other members get `j`,
and `j`, which has `i` as its contact, gets the members that are in the list of `i`. -/
theorem target_insert {i j a b : Node} (hi : i ∈ S) (hj : j ∉ S) {c c' : ℕ}
    (hc : c' + (if j = a ∧ i = b then 1 else 0) = c) (hself : a = j → c = if i = b then 1 else 0) :
    target (insert j S) c' a b = target S c a b +
      (if j = b then if a ∈ S ∧ i ≠ a then 1 else 0 else 0) +
      (if j = a then if b ∈ S ∧ i ≠ b then 1 else 0 else 0) + if i = a ∧ j = b then 1 else 0 := by
  have hij : i ≠ j := by
    rintro rfl
    exact hj hi
  unfold target
  by_cases haj : a = j
  · -- the new node
    subst haj
    rw [if_pos (Finset.mem_insert_self a S), if_neg hj, hself rfl]
    by_cases hab : a = b
    · subst hab
      simp [hj, hij]
    · by_cases hib : i = b
      · subst hib
        simp [hi, hab]
      · simp [hab, hib, hij, Ne.symm hab]
  · by_cases haS : a ∈ S
    · rw [if_pos (Finset.mem_insert_of_mem haS), if_pos haS]
      by_cases hjb : j = b
      · subst hjb
        by_cases hia : i = a <;> simp [hj, haj, haS, hia, Ne.symm haj]
      · simp [hjb, Ne.symm hjb, Ne.symm haj]
    · -- a node that joins elsewhere
      have hia : i ≠ a := by
        rintro rfl
        exact haS hi
      have hmem : a ∉ insert j S := by simp [haj, haS]
      rw [if_neg hmem, if_neg haS]
      simp [Ne.symm haj, hia, haS] at hc ⊢
      exact hc

/-- A handler takes `umtx` and begins its loop: the new node is a member from now on. -/
theorem inv_lock (h : Inv S l gone s) {i j : Node} {p : Peer Node} (hi : s.node i = some p)
    (hh : ⟨j, .lockUmtx⟩ ∈ p.handlers) (hfree : umtxFree p = true) (hl : gone = ∅ ∨ i = l) :
    Inv (insert j S) l gone (s.fire i s.msgs (started (newNodeLoop i
      { p with handlers := p.handlers.erase ⟨j, .lockUmtx⟩ } j p.nodeList))) := by
  have hlocal := h.local_ i p hi
  have hnb := umtxFree_not_busy hfree
  have hdsm := hlocal.ready _ hh (by simp)
  have hcs : inCS p = true := by
    simp only [inCS, Bool.or_eq_true, List.any_eq_true]
    exact Or.inl ⟨_, hh, rfl⟩
  have hcount := h.count_nodeList hi hcs hnb hdsm hl
  have hiS := (h.mem_of_inDsm hi hdsm).1
  obtain ⟨hjS, hcontact⟩ := h.contact_of_lock hi hh
  have hnone := h.not_busy hi hcs hnb
  have hwaits := weight_waits_of_not_busy hnone
  have hbusy : s.weight busyAt (fun _ => 0) = 0 := by
    refine sum_of_not_busy hnone (fun _ => rfl) ?_
    intro k q hq
    apply List.sum_eq_zero
    intro n hn
    obtain ⟨x, hx, rfl⟩ := List.mem_map.mp hn
    simp [hq x hx]
  obtain ⟨hearly, hphase, hcont, hentries⟩ := newNodeLoop_weights (i := i) hh rfl
  set r := newNodeLoop i { p with handlers := p.handlers.erase ⟨j, .lockUmtx⟩ } j p.nodeList with hr
  have hfire : ∀ (f : Node → Option (Peer Node) → ℕ) (g : Msg Node → ℕ),
      (s.fire i s.msgs (started r)).weight f g + f i (some p) =
        s.weight f g + f i (some r.1) + (r.2.map g).sum := by
    intro f g
    have hw := Network.weight_fire f g (i := i) (Network.perm_act s.msgs) (started r)
    rw [hi] at hw
    simpa [started] using hw
  have hcases := newNodeLoop_cases i { p with handlers := p.handlers.erase ⟨j, .lockUmtx⟩ } j
    p.nodeList
  rw [← hr] at hcases
  refine ⟨?_, ?_, ?_, ?_, ?_, ?_, ?_, ?_, ?_, ?_⟩
  · refine Network.forall_node_fire (L := fun _ p => ∀ q ∈ p, LocalInv q) h.local_ ?_
    intro q hq
    cases hq
    rcases hcases with ⟨-, heq⟩ | ⟨n, rest, -, heq⟩ <;> rw [heq] <;>
      exact ⟨hlocal.nb, fun _ _ _ => hdsm⟩
  · refine Network.forall_msgs_fire h.msgs (Network.perm_act s.msgs) ?_
    rcases hcases with ⟨-, heq⟩ | ⟨n, rest, -, heq⟩ <;> simp [started, heq, MsgInv, hlocal.nb]
  · exact cs_fire h fun q _ _ => Or.inl ⟨p, hi, hcs⟩
  · have hw := hfire busyAt fun _ => 0
    have hle : busyAt i (some r.1) ≤ 1 + busyAt i (some p) := by
      rcases hcases with ⟨-, heq⟩ | ⟨n, rest, -, heq⟩ <;> rw [heq] <;>
        simp only [busyAt, sum_erase hh fun x => x.busy.toNat] <;> simp [Handler.busy]
    simp only [List.map_const', List.sum_replicate, smul_zero, Nat.add_zero] at hw
    omega
  · have h1 := hfire ackAt ackMsg
    have h2 := hfire waitsAt fun _ => 0
    have h3 := h.ack
    have heq : ackAt i (some r.1) + (r.2.map ackMsg).sum + waitsAt i (some p) =
        ackAt i (some p) + waitsAt i (some r.1) := by
      rcases hcases with ⟨-, heq⟩ | ⟨n, rest, -, heq⟩ <;> rw [heq] <;>
        simp only [ackAt, waitsAt, sum_erase hh Handler.waits] <;> simp [Handler.waits, ackMsg]
      omega
    simp only [List.map_const', List.sum_replicate, smul_zero, Nat.add_zero] at h2
    omega
  · intro n
    have h1 := hfire (loopsAt n) fun _ => 0
    have h2 := h.news n
    have hle : (r.2.map (newNodeMsg n)).sum + loopsAt n i (some p) ≤ loopsAt n i (some r.1) := by
      rcases hcases with ⟨-, heq⟩ | ⟨n', rest, -, heq⟩ <;> rw [heq] <;>
        simp only [loopsAt, sum_erase hh (Handler.loops n)] <;> simp [Handler.loops, newNodeMsg]
    simp only [List.map_const', List.sum_replicate, smul_zero, Nat.add_zero] at h1
    simp only [Network.fire_msgs, List.map_append, List.sum_append, started]
    simp only [started] at h1
    omega
  · intro a
    have h1 := hfire (earlyAt a) (earlyMsg a)
    have h2 := h.early a
    have h3 := hearly a
    by_cases hja : j = a
    · subst hja
      simp only [Finset.mem_insert_self, if_true, if_neg hjS] at h2 h3 ⊢
      omega
    · rw [if_neg hja] at h3
      rw [show (if a ∈ insert j S then 0 else 1) = if a ∈ S then 0 else 1 by simp [Ne.symm hja]]
      omega
  · intro a
    have h1 := hfire (phaseAt a) (phaseMsg a)
    have h2 := h.phase a
    have h3 := hphase a
    by_cases hja : j = a
    · subst hja
      simp only [Finset.mem_insert_self, if_true, if_neg hjS] at h2 h3 ⊢
      omega
    · rw [if_neg hja] at h3
      rw [show (if a ∈ insert j S then 1 else 0) = if a ∈ S then 1 else 0 by simp [Ne.symm hja]]
      omega
  · exact h.gone_subset.trans (Finset.subset_insert j S)
  · intro a b
    have h1 := hfire (entriesAt a b) (entriesMsg a b)
    have h2 := h.pair a b
    have h3 := hentries a b
    have h4 := hfire (contactAt a b) (contactMsg a b)
    have h5 := hcont a b
    have hcontact' : (s.fire i s.msgs (started r)).weight (contactAt a b) (contactMsg a b) +
        (if j = a ∧ i = b then 1 else 0) = s.weight (contactAt a b) (contactMsg a b) := by
      omega
    have h6 := target_insert hiS hjS hcontact' (by rintro rfl; exact hcontact b)
    rw [hcount a, hcount b] at h3
    omega

omit [DecidableEq Node] [Fintype Node] in
/-- The critical section is entered by nobody in this move. -/
theorem hcs_of_imp {i : Node} {p p' : Peer Node} (hi : s.node i = some p)
    (h : inCS p' = true → inCS p = true) :
    ∀ q ∈ some p', inCS q = true → (∃ p ∈ s.node i, inCS p = true) ∨
      ∀ j, j ≠ i → ∀ p ∈ s.node j, inCS p = false := by
  intro q hq hcs
  cases hq
  exact Or.inl ⟨p, hi, h hcs⟩

/-- No `NEW_NODE` is in flight before the node sends one. -/
theorem news_of_acked (h : Inv S l gone s) {i : Node} {p : Peer Node} (hi : s.node i = some p)
    (hacked : p.acked = true) {r : Peer Node × List (Msg Node)}
    (hle : ∀ n, (r.2.map (newNodeMsg n)).sum ≤ loopsAt n i (some r.1)) (n : Node) :
    ((s.fire i s.msgs (started r)).msgs.map (newNodeMsg n)).sum ≤
      (s.fire i s.msgs (started r)).weight (loopsAt n) fun _ => 0 := by
  have h1 := h.acks_of_acked hi hacked
  have h2 := newNodeMsg_le n s.msgs
  have h3 := Network.le_weight_node (loopsAt n) (fun _ => 0) (s.fire i s.msgs (started r)) i
  rw [Network.fire_node_self] at h3
  have h4 := hle n
  simp only [Network.fire_msgs, List.map_append, List.sum_append, started] at h3 ⊢
  omega

/-- A handler of `JOIN_DSM` goes on. -/
theorem inv_resume (h : Inv S l gone s) {i : Node} {p : Peer Node} (hi : s.node i = some p)
    {x : Handler Node} (hx : x ∈ p.handlers)
    (hok : x.stage = .requestCS → ∀ j, j ≠ i → (s.node j).all fun p => !inCS p)
    (hlock : x.stage = .lockUmtx → gone = ∅ ∨ i = l) {r : Peer Node × List (Msg Node)}
    (hr : joinDSMHandler i p x = some r) :
    ∃ S', Inv S' l gone (s.fire i s.msgs (started r)) ∧ S ⊆ S' ∧
      (x.stage ≠ .lockUmtx → S' = S) := by
  have hlocal := h.local_ i p hi
  have hperm := Network.perm_act s.msgs
  obtain ⟨j, stage⟩ := x
  have hin : Handler.inside ⟨j, stage⟩ = true → inCS p = true := by
    intro hin
    simp only [inCS, Bool.or_eq_true, List.any_eq_true]
    exact Or.inl ⟨_, hx, hin⟩
  unfold joinDSMHandler at hr
  cases stage with
  | waitInDsm =>
    simp only at hr
    split at hr
    · rename_i hdsm
      cases hr
      obtain ⟨hm, hn⟩ := move_stage (S := S) (i := i) hlocal hx [⟨j, .requestCS⟩]
        (fun _ _ _ => hdsm) ⟨rfl, rfl, fun a => by simp [Handler.early],
          fun a => by simp [Handler.loops], fun a b l => by simp [Handler.owed]⟩
      rw [← hi] at hm hn
      refine ⟨S, inv_fire h hperm hm (hcs_of_imp hi ?_) (news_fire h hperm hn), subset_rfl,
        fun _ => rfl⟩
      intro hcs
      simp only [inCS, List.any_cons, Handler.inside, Bool.false_or, Bool.or_eq_true,
        List.any_eq_true] at hcs ⊢
      rcases hcs with ⟨y, hy, hyin⟩ | hleave
      · exact Or.inl ⟨y, List.mem_of_mem_erase hy, hyin⟩
      · exact Or.inr hleave
    · cases hr
  | requestCS =>
    cases hr
    obtain ⟨hm, hn⟩ := move_stage (S := S) (i := i) hlocal hx [⟨j, .lockUmtx⟩]
      (fun _ _ _ => hlocal.ready _ hx (by simp)) ⟨rfl, rfl, fun a => by simp [Handler.early],
        fun a => by simp [Handler.loops], fun a b l => by simp [Handler.owed]⟩
    rw [← hi] at hm hn
    refine ⟨S, inv_fire h hperm hm ?_ (news_fire h hperm hn), subset_rfl, fun _ => rfl⟩
    intro q _ _
    right
    intro k hk q' hq'
    have hall := hok rfl k hk
    rw [hq'] at hall
    simpa using hall
  | lockUmtx =>
    simp only at hr
    split at hr
    · rename_i hfree
      cases hr
      exact ⟨insert j S, inv_lock h hi hx hfree (hlock rfl), Finset.subset_insert j S,
        fun hne => absurd rfl hne⟩
    · cases hr
  | waitAcked rest =>
    simp only at hr
    split at hr
    · rename_i hacked
      cases hr
      cases rest with
      | nil =>
        have hm := move_waitAcked_nil (S := S) (i := i) hlocal hx hacked
        rw [← hi] at hm
        refine ⟨S, inv_fire h hperm hm (hcs_of_imp hi fun _ => hin rfl)
          (news_of_acked h hi hacked (r := (_, _)) ?_), subset_rfl, fun _ => rfl⟩
        intro n
        simp [newNodeMsg]
      | cons n rest =>
        have hm := move_waitAcked_cons (S := S) (i := i) hlocal hx hacked
        rw [← hi] at hm
        refine ⟨S, inv_fire h hperm hm (hcs_of_imp hi fun _ => hin rfl)
          (news_of_acked h hi hacked (r := (_, _)) ?_), subset_rfl, fun _ => rfl⟩
        intro n'
        simp [newNodeMsg, loopsAt, Handler.loops]
    · cases hr
  | adding =>
    cases hr
    have hbusy : busyAt i (some p) ≤ 1 := by
      have h1 := Network.le_weight_node busyAt (fun _ => 0) s i
      have h2 := h.busy
      rw [hi] at h1
      omega
    obtain ⟨hm, hn⟩ := move_adding (S := S) hlocal hx hbusy
    rw [← hi] at hm hn
    exact ⟨S, inv_fire h hperm hm (hcs_of_imp hi fun _ => hin rfl) (news_fire h hperm hn),
      subset_rfl, fun _ => rfl⟩
  | releaseCS =>
    cases hr
    obtain ⟨hm, hn⟩ := move_stage (S := S) (i := i) hlocal hx [] (by simp)
      ⟨rfl, rfl, fun a => by simp [Handler.early], fun a => by simp [Handler.loops],
        fun a b l => by simp [Handler.owed]⟩
    rw [← hi] at hm hn
    exact ⟨S, inv_fire h hperm hm (hcs_of_imp hi fun _ => hin rfl) (news_fire h hperm hn),
      subset_rfl, fun _ => rfl⟩

/-- The handler of a message of the joins. -/
theorem inv_deliver (h : Inv S l gone s) {m : Msg Node} (hm : m ∈ s.msgs)
    (hjoin : m.ofLeave = false) {p : Peer Node} (hi : s.node m.dest = some p)
    {r : Peer Node × List (Msg Node)} (hr : peerHandle m.dest p m = some r) :
    Inv S l gone (s.fire m.dest (s.msgs.erase m) (started r)) := by
  have hlocal := h.local_ m.dest p hi
  have hperm := Network.perm_deliver hm
  cases m with
  | joinDSM d c =>
    cases hr
    obtain ⟨hmove, hn⟩ := move_joinDSMMsg (S := S) (i := d) hlocal c
    have hi' : s.node d = some p := hi
    rw [← hi'] at hmove hn
    refine inv_fire h hperm hmove (hcs_of_imp hi' ?_) (news_fire h hperm hn)
    simp [inCS, Handler.inside]
  | newNode d c n =>
    obtain ⟨hmove, hn⟩ := move_newNodeHandler (S := S) hlocal hr
    have hi' : s.node d = some p := hi
    change Move S d (some p) _ _ _ at hmove
    change NewsMove d (some p) _ _ _ at hn
    rw [← hi'] at hmove hn
    refine inv_fire h hperm hmove (hcs_of_imp hi' ?_) (news_fire h hperm hn)
    change newNodeHandler d p c n = some r at hr
    unfold newNodeHandler at hr
    split at hr
    · cases hr
      exact id
    · cases hr
  | ackNode d c =>
    cases hr
    obtain ⟨hmove, hn⟩ := move_ackNodeHandler (S := S) (i := d) hlocal (h.acked_of_msg hm rfl hi) c
    have hi' : s.node d = some p := hi
    rw [← hi'] at hmove hn
    exact inv_fire h hperm hmove (hcs_of_imp hi' id) (news_fire h hperm hn)
  | infoDSM d c k nodes =>
    obtain ⟨p', hp', rfl⟩ := Option.map_eq_some_iff.mp hr
    obtain ⟨hmove, hn⟩ := move_infoDSMHandler (S := S) (i := d) hlocal
      (h.inDsm_of_info hm hi) c hp'
    have hi' : s.node d = some p := hi
    rw [← hi'] at hmove hn
    refine inv_fire h hperm hmove (hcs_of_imp hi' ?_) (news_fire h hperm hn)
    unfold infoDSMHandler at hp'
    split at hp'
    · cases hp'
      rw [foldl_addToNodes]
      exact id
    · cases hp'
  | _ => cases hjoin

/-- A node joins. -/
theorem inv_joinDSM (h : Inv S l gone s) {i : Node} (hi : s.node i = none) (contact : Node) :
    Inv S l gone (s.fire i s.msgs (started (joinDSM i contact))) := by
  obtain ⟨hm, hn⟩ := move_joinDSM (h.notMem_of_none hi) contact
  rw [← hi] at hm hn
  refine inv_fire h (Network.perm_act s.msgs) hm ?_ (news_fire h (Network.perm_act s.msgs) hn)
  intro q hq hcs
  cases hq
  simp [inCS, joinDSM, addToNodes] at hcs

omit [Fintype Node] in
theorem act_eq_some {i : Node} {x : Option (Peer Node)} {a : Action Node}
    {r : Option (Peer Node) × List (Msg Node)} (h : act i x a = some r) :
    (∃ contact, x = none ∧ a = .joinDSM contact ∧ r = started (joinDSM i contact)) ∨
    ∃ p r', x = some p ∧ peerAct i p a = some r' ∧ r = started r' := by
  cases x with
  | none =>
    cases a with
    | joinDSM contact =>
      cases h
      exact Or.inl ⟨contact, rfl, rfl, rfl⟩
    | _ => cases h
  | some p =>
    obtain ⟨r', hr', rfl⟩ := Option.map_eq_some_iff.mp h
    exact Or.inr ⟨p, r', rfl, hr', rfl⟩

end Steps

/-! ## Runs without a leave -/

section Run

variable [Fintype Node] {s s' : Net Node}

omit [Fintype Node] in
/-- A handler of `JOIN_DSM` has nothing to do with a leave. -/
theorem joinDSMHandler_leave {i : Node} {p : Peer Node} {x : Handler Node}
    {r : Peer Node × List (Msg Node)} (h : joinDSMHandler i p x = some r) :
    r.1.leave = p.leave ∧ r.1.removing = p.removing ∧ r.1.inDsm = p.inDsm ∧ r.1.dtCv = p.dtCv ∧
      ∀ m ∈ r.2, m.ofLeave = false := by
  have hloop : ∀ (q : Peer Node) (l : List Node), (newNodeLoop i q x.joiner l).1.leave = q.leave ∧
      (newNodeLoop i q x.joiner l).1.removing = q.removing ∧
      (newNodeLoop i q x.joiner l).1.inDsm = q.inDsm ∧ (newNodeLoop i q x.joiner l).1.dtCv = q.dtCv ∧
      ∀ m ∈ (newNodeLoop i q x.joiner l).2, m.ofLeave = false := by
    intro q l
    cases l <;> simp [newNodeLoop, Msg.ofLeave]
  unfold joinDSMHandler at h
  split at h
  · split at h
    · cases h
      exact ⟨rfl, rfl, rfl, rfl, by simp⟩
    · cases h
  · cases h
    exact ⟨rfl, rfl, rfl, rfl, by simp⟩
  · split at h
    · cases h
      exact hloop _ _
    · cases h
  · split at h
    · cases h
      exact hloop _ _
    · cases h
  · cases h
    exact ⟨rfl, rfl, rfl, rfl, by simp⟩
  · cases h
    exact ⟨rfl, rfl, rfl, rfl, by simp⟩

omit [Fintype Node] [DecidableEq Node] in
/-- The handler of a message of the joins has nothing to do with a leave. -/
theorem peerHandle_leave {i : Node} {p : Peer Node} {m : Msg Node} (hm : m.ofLeave = false)
    {r : Peer Node × List (Msg Node)} (h : peerHandle i p m = some r) :
    r.1.leave = p.leave ∧ r.1.removing = p.removing ∧ (p.inDsm = true → r.1.inDsm = true) ∧
      ((∀ d c k nodes, m ≠ .infoDSM d c k nodes) → r.1.dtCv = p.dtCv) ∧
      ∀ m ∈ r.2, m.ofLeave = false := by
  cases m with
  | joinDSM d c =>
    cases h
    exact ⟨rfl, rfl, id, fun _ => rfl, by simp⟩
  | newNode d c n =>
    simp only [peerHandle, newNodeHandler] at h
    split at h
    · cases h
      exact ⟨rfl, rfl, id, fun _ => rfl, by simp [Msg.ofLeave]⟩
    · cases h
  | ackNode d c =>
    cases h
    exact ⟨rfl, rfl, id, fun _ => rfl, by simp⟩
  | infoDSM d c k nodes =>
    obtain ⟨p', hp', rfl⟩ := Option.map_eq_some_iff.mp h
    unfold infoDSMHandler at hp'
    split at hp'
    · cases hp'
      rw [foldl_addToNodes]
      exact ⟨rfl, rfl, fun _ => rfl, fun hne => absurd rfl (hne d c k nodes), by simp⟩
    · cases hp'
  | _ => cases hm

omit [Fintype Node] in
theorem stays_fire (h : Stays s) {i : Node} {ms rest : List (Msg Node)}
    (hp : s.msgs.Perm (ms ++ rest)) {r : Peer Node × List (Msg Node)}
    (hr : r.1.leave = none ∧ r.1.removing = []) (hout : ∀ m ∈ r.2, m.ofLeave = false) :
    Stays (s.fire i rest (started r)) where
  peers := by
    refine Network.forall_node_fire
      (L := fun _ (p : Option (Peer Node)) => ∀ q ∈ p, q.leave = none ∧ q.removing = []) h.peers ?_
    intro q hq
    cases hq
    exact hr
  msgs := Network.forall_msgs_fire h.msgs hp hout

/-- Every step without a leave keeps the invariant. -/
theorem inv_step {S : Finset Node} {l : Node} {e : Event Node} (h : Inv S l ∅ s) (hstays : Stays s)
    (hok : stepOk s e) (hl : noLeave e = true) (hstep : step s e = some s') :
    (∃ S', Inv S' l ∅ s') ∧ Stays s' := by
  rcases Network.step_cases hstep with ⟨i, a, r, rfl, hr, rfl⟩ | ⟨m, r, rfl, hm, hr, rfl⟩
  · rcases act_eq_some hr with ⟨contact, hi, rfl, rfl⟩ | ⟨p, r', hi, hr', rfl⟩
    · refine ⟨⟨S, inv_joinDSM h hi contact⟩, ?_⟩
      exact stays_fire hstays (Network.perm_act _) ⟨rfl, rfl⟩ (by simp [joinDSM, Msg.ofLeave])
    · have hpeer := hstays.peers i p hi
      cases a with
      | joinDSM contact => cases hr'
      | leaveDataTransfer newOwner => cases hl
      | leaveResume => simp [peerAct, leaveResume, hpeer.1] at hr'
      | removeLeaver x => simp [peerAct, removeLeaver, hpeer.2] at hr'
      | resume x =>
        simp only [peerAct] at hr'
        split at hr'
        · rename_i hx
          obtain ⟨S', hS', -, -⟩ := inv_resume h hi hx hok (fun _ => Or.inl rfl) hr'
          obtain ⟨h1, h2, -, -, h3⟩ := joinDSMHandler_leave hr'
          exact ⟨⟨S', hS'⟩, stays_fire hstays (Network.perm_act _)
            ⟨h1.trans hpeer.1, h2.trans hpeer.2⟩ h3⟩
        · cases hr'
  · change (s.node m.dest).bind _ = some r at hr
    obtain ⟨p, hi, hr⟩ := Option.bind_eq_some_iff.mp hr
    obtain ⟨r', hr', rfl⟩ := Option.map_eq_some_iff.mp hr
    have hpeer := hstays.peers m.dest p hi
    have hjoin := hstays.msgs m hm
    obtain ⟨h1, h2, -, -, h3⟩ := peerHandle_leave hjoin hr'
    exact ⟨⟨S, inv_deliver h hm hjoin hi hr'⟩, stays_fire hstays (Network.perm_deliver hm)
      ⟨h1.trans hpeer.1, h2.trans hpeer.2⟩ h3⟩

theorem inv_initNet (first l : Node) : Inv {first} l ∅ (initNet first) := by
  have hnode : ∀ i, (initNet first).node i = if i = first then some initDSM else none := fun _ => rfl
  have hsome : ∀ i, ∀ p ∈ (initNet first).node i, i = first ∧ p = initDSM := by
    intro i p hp
    rw [hnode] at hp
    split at hp
    · rename_i hi
      cases hp
      exact ⟨hi, rfl⟩
    · cases hp
  have hweight : ∀ (f : Node → Option (Peer Node) → ℕ) (g : Msg Node → ℕ) (c : Node → ℕ),
      (∀ i, f i ((initNet first).node i) = c i) → (initNet first).weight f g = ∑ i, c i := by
    intro f g c hc
    have hmsgs : (initNet first).msgs = [] := rfl
    simp [Network.Net.weight, hc, hmsgs]
  refine ⟨?_, by simp [initNet], ?_, ?_, ?_, by simp [initNet], ?_, ?_, by simp, ?_⟩
  · intro i p hp
    obtain ⟨-, rfl⟩ := hsome i p hp
    exact ⟨rfl, by simp [initDSM]⟩
  · intro i j p hp q hq _ _
    exact (hsome i p hp).1.trans (hsome j q hq).1.symm
  · rw [hweight _ _ (fun _ => 0) fun i => by
      rw [hnode]
      split <;> simp [busyAt, initDSM]]
    simp
  · rw [hweight ackAt _ (fun _ => 0) fun i => by
      rw [hnode]
      split <;> simp [ackAt, initDSM], hweight waitsAt _ (fun _ => 0) fun i => by
      rw [hnode]
      split <;> simp [waitsAt, initDSM]]
  · intro a
    rw [hweight _ _ (fun i => if i = a then if a = first then 0 else 1 else 0) fun i => by
      rw [hnode]
      by_cases hia : i = a <;> by_cases hif : i = first <;> simp_all [earlyAt, initDSM]]
    simp
  · intro a
    rw [hweight _ _ (fun i => if i = a then if a = first then 1 else 0 else 0) fun i => by
      rw [hnode]
      by_cases hia : i = a <;> by_cases hif : i = first <;> simp_all [phaseAt, initDSM]]
    simp
  · intro a b
    rw [hweight (entriesAt a b) _ (fun _ => 0) fun i => by
      rw [hnode]
      split <;> simp [entriesAt, initDSM], hweight (contactAt a b) _ (fun _ => 0) fun i => by
      rw [hnode]
      split <;> simp [contactAt, initDSM]]
    simp only [Finset.sum_const_zero, Finset.notMem_empty, and_false, if_false, target,
      Finset.mem_singleton]
    by_cases ha : a = first <;> by_cases hb : b = first <;> simp [ha, hb]

omit [Fintype Node] in
theorem stays_initNet (first : Node) : Stays (initNet first) := by
  refine ⟨?_, by simp [initNet]⟩
  intro i p hp
  simp only [initNet] at hp
  split at hp
  · cases hp
    exact ⟨rfl, rfl⟩
  · cases hp

theorem inv_run {first : Node} {es : List (Event Node)}
    (hrun : Network.run step (initNet first) es = some s)
    (hok : Network.Meets step (fun s e => stepOk s e ∧ noLeave e = true) (initNet first) es)
    (l : Node) : (∃ S, Inv S l ∅ s) ∧ Stays s := by
  refine Network.run_invariant (P := fun s => (∃ S, Inv S l ∅ s) ∧ Stays s) ?_
    ⟨⟨_, inv_initNet first l⟩, stays_initNet first⟩ hok hrun
  rintro s e s' ⟨⟨S, hinv⟩, hstays⟩ ⟨hok, hl⟩ hstep
  exact inv_step hinv hstays hok hl hstep

/-- Agreement on the members: in every run of joins in which `request_CS` keeps different nodes
apart, whenever no join is in progress, the list of every node contains every other node that has
started exactly once, never the node itself and nobody else, and `nb_nodees` is its length. -/
theorem members_agree {first : Node} {es : List (Event Node)}
    (hrun : Network.run step (initNet first) es = some s)
    (hok : Network.Meets step (fun s e => stepOk s e ∧ noLeave e = true) (initNet first) es)
    (hquiet : quiet s) {i : Node} {p : Peer Node} (hi : s.node i = some p) :
    (∀ j, j ≠ i → (s.node j).isSome → p.nodeList.count j = 1) ∧ i ∉ p.nodeList ∧
      (∀ j ∈ p.nodeList, (s.node j).isSome) ∧ p.nbNodees = p.nodeList.length := by
  obtain ⟨⟨S, h⟩, -⟩ := inv_run hrun hok i
  obtain ⟨hmsgs, hhandlers⟩ := hquiet
  have hmem : ∀ j, j ∈ S ↔ (s.node j).isSome := by
    intro j
    constructor
    · intro hj
      by_contra hne
      exact h.notMem_of_none (by simpa using hne) hj
    · intro hj
      by_contra hne
      have hearly := h.early j
      have hzero : ∀ k, earlyAt j k (s.node k) = 0 := by
        intro k
        cases hk : s.node k with
        | none =>
          have hkj : k ≠ j := by
            rintro rfl
            rw [hk] at hj
            cases hj
          simp [earlyAt, hkj]
        | some q => simp [earlyAt, hhandlers k q hk]
      rw [if_neg hne] at hearly
      simp [Network.Net.weight, hzero, hmsgs] at hearly
  have hcount : ∀ j, p.nodeList.count j = if j ∈ S ∧ i ≠ j then 1 else 0 := by
    intro j
    have hpair := h.pair i j
    have hnode : ∀ k, entriesAt i j k (s.node k) = if k = i then p.nodeList.count j else 0 := by
      intro k
      by_cases hk : k = i
      · subst hk
        simp [entriesAt, hi, hhandlers k p hi]
      · cases hq : s.node k with
        | none => simp [entriesAt, hk]
        | some q => simp [entriesAt, hk, hhandlers k q hq]
    have hiS : i ∈ S := (hmem i).mpr (by simp [hi])
    simpa [Network.Net.weight, hnode, hmsgs, target, hiS] using hpair
  refine ⟨?_, ?_, ?_, (h.local_ i p hi).nb⟩
  · intro j hj hsome
    rw [hcount j, if_pos ⟨(hmem j).mpr hsome, hj.symm⟩]
  · rw [← List.count_eq_zero, hcount i]
    simp
  · intro j hj
    have hpos := List.count_pos_iff.mpr hj
    rw [hcount j] at hpos
    split at hpos
    · rename_i hS
      exact (hmem j).mp hS.1
    · omega

end Run

/-- The node `b` joins through `a`, and `c` through `b` while `b` is still joining. -/
def joinsRun (a b c : Node) : List (Event Node) :=
  [.act b (.joinDSM a), .act c (.joinDSM b), .deliver (.joinDSM b c), .deliver (.joinDSM a b),
    .act a (.resume ⟨b, .waitInDsm⟩), .act a (.resume ⟨b, .requestCS⟩),
    .act a (.resume ⟨b, .lockUmtx⟩), .act a (.resume ⟨b, .adding⟩),
    .act a (.resume ⟨b, .releaseCS⟩), .deliver (.infoDSM b a 0 []),
    .act b (.resume ⟨c, .waitInDsm⟩), .act b (.resume ⟨c, .requestCS⟩),
    .act b (.resume ⟨c, .lockUmtx⟩), .deliver (.newNode a b c), .deliver (.ackNode b a),
    .act b (.resume ⟨c, .waitAcked []⟩), .act b (.resume ⟨c, .adding⟩),
    .act b (.resume ⟨c, .releaseCS⟩), .deliver (.infoDSM c b 1 [a])]

theorem members_agree_joinsRun :
    ∃ s p, Network.run step (initNet 0) (joinsRun (0 : Fin 3) 1 2) = some s ∧
      s.node 2 = some p ∧ p.nodeList.count 0 = 1 ∧ p.nodeList.count 1 = 1 ∧ 2 ∉ p.nodeList := by
  have hrun : Network.run step (initNet 0) (joinsRun (0 : Fin 3) 1 2) = some _ := rfl
  have hagree := members_agree hrun (by decide)
    ⟨rfl, by decide⟩ (i := 2) rfl
  exact ⟨_, _, hrun, rfl, hagree.1 0 (by decide) rfl, hagree.1 1 (by decide) rfl, hagree.2.1⟩

end Membership
