import Psar.Connection.Proofs.RecvAllProofs
import Psar.Connection.SendAll

/-!
# Proofs: the cursors of a transfer

As long as the size is below `2 ^ 31`, both loops are where the counts take them. From `2 ^ 31`
bytes on, two counts of `2 ^ 30` make `seek` overflow.
-/

namespace Transfer

open Receive

variable {size : BitVec 64} {turn : ℤ → Result → Loop} {results : ℕ → Result}

/-! ## The two loops -/

theorem run_succ {k : ℕ} {seek : ℤ} (h : run turn results k = .running seek) :
    run turn results (k + 1) = turn seek (results k) := by
  rw [run, h]

theorem run_returned {k : ℕ} {value : ℤ} (h : run turn results k = .returned value) :
    run turn results (k + 1) = .returned value := by
  rw [run, h]

/-- `Recv_all` is a loop of the same form. -/
theorem recvAll_eq_run (size : BitVec 64) (recv : ℕ → Result) (k : ℕ) :
    recvAll size recv k = run (Receive.turn size) recv k := by
  induction k with
  | zero => rfl
  | succ k ih =>
    cases hrun : run (Receive.turn size) recv k with
    | running seek => rw [run_succ hrun, recvAll_succ (ih.trans hrun)]
    | returned value => rw [run_returned hrun, recvAll, ih, hrun]
    | undefined => rw [run, recvAll, ih, hrun]

/-- The value of `ret` where its bytes fit. -/
theorem ret_eq {r : Result} (h : r.bytes < 2 ^ 31) : r.ret = r.bytes ∨ r = .error := by
  cases r with
  | count n => exact Or.inl (ret_count h)
  | zero => exact Or.inl rfl
  | error => exact Or.inr rfl

theorem sendTurn_eq {seek : ℕ} {r : Result} (hret : r.ret = r.bytes)
    (hle : seek + r.bytes ≤ size.toNat) (hlt : seek + r.bytes < 2 ^ 31) :
    sendTurn size seek r =
      if seek + r.bytes < size.toNat then .running (seek + r.bytes : ℕ) else .returned 0 := by
  unfold sendTurn
  rw [hret, if_neg (by omega), if_neg (by omega), if_neg (by omega), ← Nat.cast_add]
  simp only [wanted_iff hle]

theorem adds_sendTurn (size : BitVec 64) : Adds size (sendTurn size) := by
  constructor
  · intro seek n _ hlt hfit
    rw [sendTurn_eq (ret_count (by omega)) hlt.le hfit]
    exact if_pos hlt
  · intro seek r hle hfit
    rcases ret_eq (show r.bytes < 2 ^ 31 by omega) with hret | rfl
    · rw [sendTurn_eq hret hle hfit]
      split_ifs
      · exact Or.inl rfl
      · exact Or.inr ⟨0, rfl⟩
    · right
      have hret : Result.error.ret = -1 := rfl
      refine ⟨-1, ?_⟩
      unfold sendTurn
      rw [hret, if_neg (by omega), if_pos rfl]

theorem adds_recvTurn (size : BitVec 64) : Adds size (Receive.turn size) := by
  constructor
  · intro seek n hpos hlt hfit
    rw [turn_count hpos hlt.le hfit, if_pos hlt]
  · intro seek r hle hfit
    rcases ret_eq (show r.bytes < 2 ^ 31 by omega) with hret | rfl
    · rcases Nat.eq_zero_or_pos (seek + r.bytes) with hzero | hpos
      · -- The connection has been closed before the first byte.
        right
        refine ⟨seek, ?_⟩
        unfold Receive.turn
        rw [hret, if_neg (by omega), if_pos (by omega)]
      · rw [turn_eq hret hpos hle hfit]
        split_ifs
        · exact Or.inl rfl
        · exact Or.inr ⟨_, rfl⟩
    · exact Or.inr ⟨-1, turn_error seek⟩

/-! ## Runs -/

theorem Asked.received_le (h : Asked size results) (k : ℕ) : received results k ≤ size.toNat := by
  induction k with
  | zero => exact Nat.zero_le _
  | succ k ih =>
    show received results k + (results k).bytes ≤ size.toNat
    cases hr : results k with
    | count n => exact h k n hr
    | zero => exact ih
    | error => exact ih

/-- While the size is below `2 ^ 31`, the loop is where the counts take it, or has returned. -/
theorem run_of_lt (hturn : Adds size turn) (hlt : size.toNat < 2 ^ 31) (h : Asked size results)
    (k : ℕ) : run turn results k = .running (received results k) ∨
      ∃ value, run turn results k = .returned value := by
  induction k with
  | zero => exact Or.inl rfl
  | succ k ih =>
    rcases ih with hrun | ⟨value, hrun⟩
    · have hle : received results k + (results k).bytes ≤ size.toNat := h.received_le (k + 1)
      rw [run_succ hrun]
      exact hturn.step _ _ hle (by omega)
    · exact Or.inr ⟨value, run_returned hrun⟩

theorem fits_of_lt (hturn : Adds size turn) (hlt : size.toNat < 2 ^ 31) (h : Asked size results) :
    Fits (run turn results) results := by
  have hcount : ∀ k seek n, run turn results k = .running seek → results k = .count n →
      0 ≤ seek ∧ seek + n < 2 ^ 31 := by
    intro k seek n hrun hn
    have hle := h k n hn
    rcases run_of_lt hturn hlt h k with hk | ⟨value, hk⟩
    · rw [hk] at hrun
      cases hrun
      omega
    · rw [hk] at hrun
      cases hrun
  constructor
  · intro k seek n hrun hn
    have hseek := hcount k seek n hrun hn
    omega
  · intro k seek n hrun hn
    exact (hcount k seek n hrun hn).2
  · intro k hk
    rcases run_of_lt hturn hlt h k with hrun | ⟨value, hrun⟩
    · rw [hrun] at hk
      cases hk
    · rw [hrun] at hk
      cases hk

/-! ## From `2 ^ 31` bytes on -/

theorem received_twoHalves (k : ℕ) : received twoHalves k = min k 2 * 2 ^ 30 := by
  induction k with
  | zero => rfl
  | succ k ih =>
    show received twoHalves k + (twoHalves k).bytes = _
    rw [ih]
    unfold twoHalves
    split_ifs with hk
    · show min k 2 * 2 ^ 30 + 2 ^ 30 = _
      omega
    · show min k 2 * 2 ^ 30 + 0 = _
      omega

theorem asked_twoHalves (hge : 2 ^ 31 ≤ size.toNat) : Asked size twoHalves := by
  intro k n hn
  rw [received_twoHalves]
  unfold twoHalves at hn
  split_ifs at hn with hk
  cases hn
  omega

theorem not_fits_twoHalves (hturn : Adds size turn) (hge : 2 ^ 31 ≤ size.toNat) :
    ¬Fits (run turn twoHalves) twoHalves := by
  intro h
  have hone : run turn twoHalves 1 = .running (0 + 2 ^ 30 : ℕ) :=
    hturn.more 0 (2 ^ 30) (Nat.two_pow_pos 30) (by omega) (by omega)
  have hlt := h.seek 1 _ (2 ^ 30) hone rfl
  omega

theorem sizeFits_iff : SizeFits size ↔ size.toNat < 2 ^ 31 := by
  constructor
  · intro h
    by_contra hge
    have hge' : 2 ^ 31 ≤ size.toNat := Nat.le_of_not_lt hge
    exact not_fits_twoHalves (adds_sendTurn size) hge' (h twoHalves (asked_twoHalves hge')).1
  · intro hlt results h
    have hrecv : recvAll size results = run (Receive.turn size) results :=
      funext (recvAll_eq_run size results)
    rw [hrecv]
    exact ⟨fits_of_lt (adds_sendTurn size) hlt h, fits_of_lt (adds_recvTurn size) hlt h⟩

theorem messageFits_iff : MessageFits size ↔ size.toNat < 2 ^ 31 := by
  unfold MessageFits
  rw [sizeFits_iff, sizeFits_iff]
  exact and_iff_right (show 8 < 2 ^ 31 by omega)

/-! ## No transfer of more bytes completes -/

theorem bytes_lt (hcount : ∀ k n, results k = .count n → n < 2 ^ 31) (k : ℕ) :
    (results k).bytes < 2 ^ 31 := by
  cases hr : results k with
  | count n => exact hcount k n hr
  | zero => exact Nat.two_pow_pos 31
  | error => exact Nat.two_pow_pos 31

/-- A turn does not find the end of a message of `2 ^ 31` bytes or more. -/
theorem sendTurn_ne_zero {r : Result} (hr : r.bytes < 2 ^ 31) (hge : 2 ^ 31 ≤ size.toNat)
    (seek : ℤ) : sendTurn size seek r ≠ .returned 0 := by
  unfold sendTurn
  split_ifs with hneg herror hover hmore
  · exact Loop.noConfusion
  · exact fun h => absurd (Loop.returned.inj h) (by omega)
  · exact Loop.noConfusion
  · exact Loop.noConfusion
  · exfalso
    rcases ret_eq hr with hret | rfl
    · obtain ⟨n, hn⟩ := Int.eq_ofNat_of_zero_le (show 0 ≤ seek + r.ret by omega)
      rw [hn, wanted_iff (by omega)] at hmore
      omega
    · exact herror rfl

/-- `send_all` does not return 0 for `2 ^ 31` bytes or more. -/
theorem sendAll_not_returned_zero (hcount : ∀ k n, results k = .count n → n < 2 ^ 31)
    (hge : 2 ^ 31 ≤ size.toNat) (k : ℕ) : sendAll size results k ≠ .returned 0 := by
  induction k with
  | zero => exact Loop.noConfusion
  | succ k ih =>
    unfold sendAll at ih ⊢
    cases hrun : run (sendTurn size) results k with
    | running seek =>
      rw [run_succ hrun]
      exact sendTurn_ne_zero (bytes_lt hcount k) hge seek
    | returned value =>
      rw [run_returned hrun, ← hrun]
      exact ih
    | undefined =>
      rw [run, hrun]
      exact Loop.noConfusion

end Transfer
