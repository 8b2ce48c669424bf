import Psar.Connection.RecvAll

/-!
# Proofs: the loop of `Recv_all`

As long as the bytes received fit into `seek`, the loop is where the counts take it, and every turn
that receives something makes `size - seek` smaller. A 0 behind some bytes leaves the loop where it
is, for ever.
-/

namespace Receive

variable {size : BitVec 64} {recv : ℕ → Result}

/-! ## One turn -/

theorem ret_count {n : ℕ} (h : n < 2 ^ 31) : (Result.count n).ret = n := by
  show (BitVec.ofNat 32 n).toInt = n
  rw [BitVec.toInt_ofNat', Int.bmod_eq_of_le] <;> omega

/-- The test at the end of the loop. -/
theorem wanted_iff {seek : ℕ} (h : seek ≤ size.toNat) :
    0 < size - BitVec.ofInt 64 seek ↔ seek < size.toNat := by
  have hlt := size.isLt
  rw [BitVec.ofInt_natCast, BitVec.lt_def, BitVec.toNat_sub, BitVec.toNat_ofNat]
  show 0 < _ ↔ _
  omega

theorem turn_eq {seek : ℕ} {r : Result} (hret : r.ret = r.bytes) (hpos : 0 < seek + r.bytes)
    (hle : seek + r.bytes ≤ size.toNat) (hlt : seek + r.bytes < 2 ^ 31) :
    turn size seek r =
      if seek + r.bytes < size.toNat then .running (seek + r.bytes : ℕ)
      else .returned (seek + r.bytes : ℕ) := by
  unfold turn
  rw [hret, if_neg (by omega), if_neg (by omega), if_neg (by omega), if_neg (by omega),
    ← Nat.cast_add]
  simp only [wanted_iff hle]

/-- Bytes that fit into `seek`. -/
theorem turn_count {seek n : ℕ} (hpos : 0 < n) (hle : seek + n ≤ size.toNat)
    (hlt : seek + n < 2 ^ 31) :
    turn size seek (.count n) =
      if seek + n < size.toNat then .running (seek + n : ℕ) else .returned (seek + n : ℕ) := by
  have hret := ret_count (show n < 2 ^ 31 by omega)
  have hsum : 0 < seek + n := by omega
  exact turn_eq hret hsum hle hlt

/-- Bytes that do not fit. -/
theorem turn_overflow {seek n : ℕ} (hn : n < 2 ^ 31) (hge : 2 ^ 31 ≤ seek + n) :
    turn size seek (.count n) = .undefined := by
  unfold turn
  rw [ret_count hn, if_neg (by omega), if_neg (by omega), if_neg (by omega), if_pos (by omega)]

/-- The end of the stream behind some bytes. -/
theorem turn_zero {seek : ℕ} (hpos : 0 < seek) (hlt : seek < size.toNat) (hseek : seek < 2 ^ 31) :
    turn size seek .zero = .running seek := by
  have hturn := @turn_eq size seek .zero rfl hpos hlt.le hseek
  exact hturn.trans (if_pos hlt)

theorem turn_error (seek : ℕ) : turn size seek .error = .returned (-1) := by
  have hret : Result.error.ret = -1 := rfl
  unfold turn
  rw [hret, if_neg (by omega), if_neg (by omega), if_pos rfl]

theorem recvAll_succ {k : ℕ} {seek : ℤ} (h : recvAll size recv k = .running seek) :
    recvAll size recv (k + 1) = turn size seek (recv k) := by
  rw [recvAll, h]

/-! ## The turns that are reached -/

theorem received_mono {i k : ℕ} (h : i ≤ k) : received recv i ≤ received recv k := by
  induction k, h using Nat.le_induction with
  | base => exact le_rfl
  | succ k _ ih => exact ih.trans (Nat.le_add_right _ _)

theorem Reached.of_le {i k : ℕ} (h : Reached size recv k) (hi : i ≤ k) : Reached size recv i := by
  refine ⟨fun j hj => h.1 j (by omega), ?_⟩
  rcases h.2 with rfl | hlt
  · exact Or.inl (by omega)
  · exact Or.inr ((received_mono hi).trans_lt hlt)

/-- What one reached turn does, if its bytes fit into `seek`. -/
theorem recvAll_step (h : Possible size recv) {k : ℕ} (hk : Reached size recv k)
    (hrun : recvAll size recv k = .running (received recv k)) {n : ℕ} (hn : recv k = .count n)
    (hfit : received recv k + n < 2 ^ 31) :
    recvAll size recv (k + 1) =
      if received recv (k + 1) < size.toNat then .running (received recv (k + 1))
      else .returned (received recv (k + 1)) := by
  obtain ⟨hpos, hle⟩ := h.count k n hk hn
  have hnext : received recv (k + 1) = received recv k + n := by
    show received recv k + (recv k).bytes = _
    rw [hn]
    rfl
  rw [recvAll_succ hrun, hn, turn_count hpos (by omega) hfit, hnext]

/-- The loop is where the counts take it. -/
theorem recvAll_of_reached (h : Possible size recv) {k : ℕ} (hk : Reached size recv k)
    (hfit : ∀ i < k, ∀ n, recv i = .count n → received recv i + n < 2 ^ 31) :
    recvAll size recv k = .running (received recv k) := by
  induction k with
  | zero => rfl
  | succ k ih =>
    have hk' := hk.of_le (Nat.le_succ k)
    obtain ⟨n, hn⟩ := hk.1 k (Nat.lt_succ_self k)
    have hrun := ih hk' fun i hi => hfit i (by omega)
    have hlt : received recv (k + 1) < size.toNat := hk.2.resolve_left (by omega)
    rw [recvAll_step h hk' hrun hn (hfit k (Nat.lt_succ_self k) n hn), if_pos hlt]

/-- Every reached turn has received at least one byte. -/
theorem le_received (h : Possible size recv) {k : ℕ} (hk : Reached size recv k) :
    k ≤ received recv k := by
  induction k with
  | zero => exact Nat.zero_le _
  | succ k ih =>
    have hk' := hk.of_le (Nat.le_succ k)
    obtain ⟨n, hn⟩ := hk.1 k (Nat.lt_succ_self k)
    have hpos := (h.count k n hk' hn).1
    have hprev := ih hk'
    show k + 1 ≤ received recv k + (recv k).bytes
    rw [hn]
    show k + 1 ≤ received recv k + n
    omega

/-! ## Returning -/

/-- A clean call has returned after as many turns as there are reached ones. -/
theorem returns_of_clean (h : Possible size recv) (hclean : Clean size recv) :
    Returns size recv := by
  by_contra hnot
  have hall : ∀ k, Reached size recv k := by
    intro k
    induction k with
    | zero => exact ⟨by omega, Or.inl rfl⟩
    | succ k ih =>
      have hrun := recvAll_of_reached h ih fun i hi => (hclean i (ih.of_le hi.le)).2
      have hturn := recvAll_succ hrun
      cases hr : recv k with
      | zero =>
        exfalso
        rw [hr, (hclean k ih).1 hr] at hturn
        exact hnot ⟨k + 1, 0, hturn⟩
      | error =>
        exfalso
        rw [hr, turn_error] at hturn
        exact hnot ⟨k + 1, -1, hturn⟩
      | count n =>
        have hstep := recvAll_step h ih hrun hr ((hclean k ih).2 n hr)
        by_cases hlt : received recv (k + 1) < size.toNat
        · refine ⟨?_, Or.inr hlt⟩
          intro i hi
          rcases Nat.lt_succ_iff_lt_or_eq.mp hi with hi | rfl
          · exact ih.1 i hi
          · exact ⟨n, hr⟩
        · rw [if_neg hlt] at hstep
          exact absurd ⟨k + 1, _, hstep⟩ hnot
  have hk := hall (size.toNat + 1)
  have hle := le_received h hk
  have hlt : received recv (size.toNat + 1) < size.toNat := hk.2.resolve_left (by omega)
  omega

/-- A loop that stays in `l` from some turn on has not returned. -/
theorem not_returns {k : ℕ} (hrun : ∀ i ≤ k, ∀ value, recvAll size recv i ≠ .returned value)
    {l : Loop} (hl : ∀ value, l ≠ .returned value) (hk : recvAll size recv (k + 1) = l)
    (hstay : ∀ i > k, recvAll size recv i = l → recvAll size recv (i + 1) = l) :
    ¬Returns size recv := by
  have hfix : ∀ i > k, recvAll size recv i = l := by
    intro i hi
    induction i, hi using Nat.le_induction with
    | base => exact hk
    | succ i hi ih => exact hstay i hi ih
  rintro ⟨i, value, hi⟩
  rcases Nat.lt_or_ge k i with hlt | hge
  · rw [hfix i hlt] at hi
    exact hl value hi
  · exact hrun i hge value hi

/-- What the first turn that is not clean does. -/
theorem clean_of_returns (h : Possible size recv) (hcount : ∀ k n, recv k = .count n → n < 2 ^ 31)
    (hreturns : Returns size recv) : Clean size recv := by
  intro k
  induction k using Nat.strong_induction_on with
  | _ k ih =>
    intro hk
    have hfit : ∀ i < k, ∀ n, recv i = .count n → received recv i + n < 2 ^ 31 :=
      fun i hi => (ih i hi (hk.of_le hi.le)).2
    have hrun := recvAll_of_reached h hk hfit
    have hrunning : ∀ i ≤ k, ∀ value, recvAll size recv i ≠ .returned value := by
      intro i hi value
      rw [recvAll_of_reached h (hk.of_le hi) fun j hj => hfit j (by omega)]
      exact Loop.noConfusion
    constructor
    · intro hzero
      by_contra hne
      have hpos : 0 < k := by
        rcases Nat.eq_zero_or_pos k with rfl | hpos
        · exact absurd rfl hne
        · exact hpos
      have hlt : received recv k < size.toNat := hk.2.resolve_left (by omega)
      have hsmall : received recv k < 2 ^ 31 := by
        obtain ⟨j, rfl⟩ := Nat.exists_eq_succ_of_ne_zero hpos.ne'
        obtain ⟨n, hn⟩ := hk.1 j (Nat.lt_succ_self j)
        have := hfit j (Nat.lt_succ_self j) n hn
        show received recv j + (recv j).bytes < 2 ^ 31
        rw [hn]
        exact this
      refine not_returns hrunning (l := .running (received recv k)) (fun _ => Loop.noConfusion)
        ?_ ?_ hreturns
      · rw [recvAll_succ hrun, hzero, turn_zero (by omega) hlt hsmall]
      · intro i hi hstays
        rw [recvAll_succ hstays, h.zero k hzero i (by omega), turn_zero (by omega) hlt hsmall]
    · intro n hn
      by_contra hge
      have hsmall := hcount k n hn
      refine not_returns hrunning (l := .undefined) (fun _ => Loop.noConfusion) ?_ ?_ hreturns
      · rw [recvAll_succ hrun, hn, turn_overflow hsmall (by omega)]
      · intro i _ hstays
        rw [recvAll, hstays]

/-- A clean call returns; where no count is above `INT_MAX`, every call that returns is clean. -/
theorem recvAll_returns_iff (h : Possible size recv) :
    (Clean size recv → Returns size recv) ∧
      ((∀ k n, recv k = .count n → n < 2 ^ 31) → (Returns size recv ↔ Clean size recv)) :=
  ⟨returns_of_clean h, fun hcount => ⟨clean_of_returns h hcount, returns_of_clean h⟩⟩

/-! ## A stream that ends -/

theorem possible_endsAfter {n : ℕ} (hpos : 0 < n) (hle : n ≤ size.toNat) :
    Possible size (endsAfter n) := by
  constructor
  · intro k m _ hm
    unfold endsAfter at hm
    split_ifs at hm with hk
    cases hm
    subst hk
    exact ⟨hpos, hle⟩
  · intro k hk i hi
    unfold endsAfter at hk ⊢
    split_ifs at hk with hzero
    rw [if_neg (by omega)]

theorem clean_endsAfter {n : ℕ} (hn : n = size.toNat) (hlt : n < 2 ^ 31) :
    Clean size (endsAfter n) := by
  rintro k ⟨hcounts, hreceived⟩
  have hk : k = 0 := by
    by_contra hpos
    have hmono : received (endsAfter n) 1 ≤ received (endsAfter n) k := received_mono (by omega)
    have hone : received (endsAfter n) 1 = n := Nat.zero_add n
    omega
  subst hk
  refine ⟨fun _ => rfl, ?_⟩
  rintro m ⟨⟩
  exact (Nat.zero_add n).symm ▸ hlt

/-- The size prefix arrives as a whole. -/
theorem recvAll_returns_prefix : Returns 8#64 (endsAfter 8) :=
  (recvAll_returns_iff (possible_endsAfter (by decide) (by decide))).1
    (clean_endsAfter rfl (by decide))

/-- The peer closes the connection behind the first 3 bytes of a size prefix. -/
theorem recvAll_hangs_prefix : Possible 8#64 (endsAfter 3) ∧ ¬Returns 8#64 (endsAfter 3) := by
  have hpossible : Possible 8#64 (endsAfter 3) := possible_endsAfter (by decide) (by decide)
  refine ⟨hpossible, ?_⟩
  intro hreturns
  have hcount : ∀ k n, endsAfter 3 k = .count n → n < 2 ^ 31 := by
    intro k n hn
    unfold endsAfter at hn
    split_ifs at hn
    cases hn
    omega
  have hreached : Reached 8#64 (endsAfter 3) 1 := by
    constructor
    · intro i hi
      exact ⟨3, if_pos (by omega)⟩
    · right
      show 0 + 3 < 8
      omega
  have hzero : received (endsAfter 3) 1 = 0 :=
    (clean_of_returns hpossible hcount hreturns 1 hreached).1 rfl
  have hthree : received (endsAfter 3) 1 = 3 := rfl
  omega

end Receive
