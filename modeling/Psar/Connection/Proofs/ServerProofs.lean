import Psar.Connection.Server
import Psar.Connection.Proofs.RecvAllProofs

/-!
# Proofs: the frames that `server_thread` accepts

How the bytes of a size or of a message arrive does not matter: `Recv_all` ends up where all of them
take it. So a stream is followed frame by frame, down to the place where it ends or fails.
-/

namespace Receive

open Connection (ofLeBytes)
open SendState (sizeofMessage)

variable {env : Env}

/-! ## Safe connections -/

/-- All frames so far are complete. -/
def State.Done (s : State) : Prop := ∀ f ∈ s.frames, f.Complete

theorem after_step (chunk : ℕ → ℕ) (k : ℕ) (s : State) :
    after env chunk (k + 1) s = after env (fun i => chunk (i + 1)) k (step env (chunk 0) s) := rfl

theorem step_closed {s : State} (h : s.part = .closed) (c : ℕ) : step env c s = s :=
  if_pos (Or.inl h)

/-- A connection is safe if it is after the next call of `recv`, whatever that returns. -/
theorem safe_iff_step {s : State} : Safe env s ↔ s.Done ∧ ∀ c, Safe env (step env c s) := by
  constructor
  · intro h
    refine ⟨(h fun _ => 0).1 0, ?_⟩
    intro c chunk
    obtain ⟨hframes, k, hk⟩ := h fun i => Nat.casesOn i c chunk
    refine ⟨fun k => hframes (k + 1), ?_⟩
    cases k with
    | zero =>
      have hclosed : s.part = .closed := hk
      refine ⟨0, ?_⟩
      rw [step_closed hclosed]
      exact hclosed
    | succ k => exact ⟨k, hk⟩
  · rintro ⟨hdone, hstep⟩ chunk
    obtain ⟨hframes, k, hk⟩ := hstep (chunk 0) fun i => chunk (i + 1)
    refine ⟨?_, k + 1, hk⟩
    intro k
    cases k with
    | zero => exact hdone
    | succ k => exact hframes k

/-- A step that is the same for all chunks. -/
theorem safe_iff_of_step {s s' : State} (hdone : s.Done) (h : ∀ c, step env c s = s') :
    Safe env s ↔ Safe env s' := by
  rw [safe_iff_step]
  constructor
  · rintro ⟨-, hsafe⟩
    rw [← h 0]
    exact hsafe 0
  · intro hsafe
    exact ⟨hdone, fun c => by rw [h c]; exact hsafe⟩

theorem not_safe_of_frames {s : State} {f : Frame} (hf : f ∈ s.frames) (h : ¬f.Complete) :
    ¬Safe env s := fun hsafe => h ((safe_iff_step.mp hsafe).1 f hf)

/-- A connection that no call of `recv` changes. -/
theorem not_safe_of_stuck {s : State} (h : ∀ c, step env c s = s) (hpart : s.part ≠ .closed) :
    ¬Safe env s := by
  intro hsafe
  have hafter : ∀ k, after env (fun _ => 0) k s = s := by
    intro k
    induction k with
    | zero => rfl
    | succ k ih =>
      rw [after_step, h]
      exact ih
  obtain ⟨-, k, hk⟩ := hsafe fun _ => 0
  rw [hafter] at hk
  exact hpart hk

theorem not_safe_undefined {s : State} (h : s.part = .undefined) : ¬Safe env s := by
  refine not_safe_of_stuck (fun c => if_pos (Or.inr h)) ?_
  rw [h]
  exact Part.noConfusion

theorem safe_closed {s : State} (hdone : s.Done) (h : s.part = .closed) : Safe env s := by
  have hafter : ∀ chunk k, after env chunk k s = s := by
    intro chunk k
    induction k generalizing chunk with
    | zero => rfl
    | succ k ih =>
      rw [after_step, step_closed h]
      exact ih _
  intro chunk
  refine ⟨?_, 0, h⟩
  intro k
  rw [hafter]
  exact hdone

/-! ## One call of `recv` -/

/-- `server_thread` is in a `Recv_all` that has room for more bytes. -/
structure Filling (env : Env) (s : State) : Prop where
  part : s.part ≠ .closed ∧ s.part ≠ .undefined
  null : isNull env s.part = false
  room : s.data.length < wanted s.part
  small : wanted s.part < 2 ^ 64

/-- The connection when the next `n` bytes have been received. -/
def State.moved (s : State) (n : ℕ) : State :=
  { s with left := s.left.drop n, data := s.data ++ s.left.take n }

theorem State.moved_moved (s : State) (m n : ℕ) : (s.moved m).moved n = s.moved (m + n) := by
  unfold State.moved
  simp only [List.drop_drop, List.append_assoc, List.take_add]

theorem Filling.step_eq {s : State} (h : Filling env s) (c : ℕ) :
    step env c s =
      let r := recv env.ending false s.left (wanted s.part - s.data.length) c
      match turn (BitVec.ofNat 64 (wanted s.part)) s.data.length r with
      | .running _ => s.moved r.bytes
      | .returned value => finish env (s.moved r.bytes) value
      | .undefined => { s.moved r.bytes with part := .undefined } := by
  unfold step
  rw [if_neg (not_or.mpr h.part), h.null]
  rfl

theorem Filling.toNat {s : State} (h : Filling env s) :
    (BitVec.ofNat 64 (wanted s.part)).toNat = wanted s.part :=
  (BitVec.toNat_ofNat _ _).trans (Nat.mod_eq_of_lt h.small)

/-- Some of the bytes that are left are received. -/
theorem Filling.step_count {s : State} (h : Filling env s) (hleft : s.left ≠ []) (c : ℕ) :
    ∃ n, 0 < n ∧ s.data.length + n ≤ wanted s.part ∧ n ≤ s.left.length ∧
      step env c s =
        if 2 ^ 31 ≤ s.data.length + n then { s.moved n with part := .undefined }
        else if s.data.length + n < wanted s.part then s.moved n
        else finish env (s.moved n) (s.data.length + n : ℕ) := by
  have hroom := h.room
  have hpos := List.length_pos_of_ne_nil hleft
  obtain ⟨n, hn⟩ : ∃ n, n =
      min (max 1 c) (min (min (wanted s.part - s.data.length) s.left.length) maxCount) := ⟨_, rfl⟩
  have hrecv : recv env.ending false s.left (wanted s.part - s.data.length) c = .count n := by
    unfold recv
    rw [if_neg (by omega), if_neg hleft, if_neg (by simp), hn]
  have hmax : maxCount < 2 ^ 31 := by
    unfold maxCount
    omega
  have hmax' : 0 < maxCount := by
    unfold maxCount
    omega
  refine ⟨n, by omega, by omega, by omega, ?_⟩
  rw [h.step_eq, hrecv]
  show (match turn _ _ (.count n) with
    | .running _ => s.moved n
    | .returned value => finish env (s.moved n) value
    | .undefined => { s.moved n with part := .undefined }) = _
  by_cases hlt : 2 ^ 31 ≤ s.data.length + n
  · rw [turn_overflow (by omega) hlt, if_pos hlt]
  · rw [turn_count (by omega) (by rw [h.toNat]; omega) (by omega), h.toNat, if_neg hlt]
    by_cases hnext : s.data.length + n < wanted s.part
    · rw [if_pos hnext, if_pos hnext]
    · rw [if_neg hnext, if_neg hnext]

/-- `recv` fails. -/
theorem Filling.step_error {s : State} (h : Filling env s) (hleft : s.left = [])
    (herror : env.ending = .error) (c : ℕ) : step env c s = finish env (s.moved 0) (-1) := by
  have hroom := h.room
  have hrecv : recv env.ending false s.left (wanted s.part - s.data.length) c = .error := by
    unfold recv
    rw [if_neg (by omega), if_pos hleft, herror]
  rw [h.step_eq, hrecv]
  simp only [turn_error]
  rfl

/-- The stream ends in front of the first byte. -/
theorem Filling.step_end {s : State} (h : Filling env s) (hleft : s.left = [])
    (heof : env.ending = .eof) (hdata : s.data = []) (c : ℕ) :
    step env c s = finish env (s.moved 0) 0 := by
  have hroom := h.room
  have hrecv : recv env.ending false s.left (wanted s.part - s.data.length) c = .zero := by
    unfold recv
    rw [if_neg (by omega), if_pos hleft, heof]
  rw [h.step_eq, hrecv, hdata]
  rfl

theorem State.moved_zero (s : State) : s.moved 0 = s := by
  unfold State.moved
  simp

/-- The stream ends behind some of the bytes. -/
theorem Filling.not_safe_end {s : State} (h : Filling env s) (hleft : s.left = [])
    (heof : env.ending = .eof) (hdata : 0 < s.data.length) (hseek : s.data.length < 2 ^ 31) :
    ¬Safe env s := by
  have hroom := h.room
  refine not_safe_of_stuck ?_ h.part.1
  intro c
  have hrecv : recv env.ending false s.left (wanted s.part - s.data.length) c = .zero := by
    unfold recv
    rw [if_neg (by omega), if_pos hleft, heof]
  rw [h.step_eq, hrecv]
  simp only [turn_zero hdata (show s.data.length < (BitVec.ofNat 64 (wanted s.part)).toNat by
    rw [h.toNat]; exact hroom) hseek]
  exact s.moved_zero

/-! ## A whole `Recv_all` -/

/-- Where `Recv_all` ends up when it has received what it can get. -/
def settle (env : Env) (s : State) : State :=
  let n := min (wanted s.part - s.data.length) s.left.length
  if 2 ^ 31 ≤ s.data.length + n then { s.moved n with part := .undefined }
  else if s.data.length + n < wanted s.part then s.moved n
  else finish env (s.moved n) (s.data.length + n : ℕ)

theorem State.length_data_moved (s : State) {n : ℕ} (h : n ≤ s.left.length) :
    (s.moved n).data.length = s.data.length + n := by
  show (s.data ++ s.left.take n).length = _
  rw [List.length_append, List.length_take, Nat.min_eq_left h]

/-- Some of the bytes take `Recv_all` to a place from which it ends up where it did before. -/
theorem settle_moved {s : State} {n : ℕ} (h : s.data.length + n ≤ wanted s.part)
    (hlen : n ≤ s.left.length) : settle env (s.moved n) = settle env s := by
  have hdata := s.length_data_moved hlen
  have hrest : (s.moved n).left.length = s.left.length - n := List.length_drop
  have hpart : (s.moved n).part = s.part := rfl
  obtain ⟨m, hm⟩ : ∃ m, m = min (wanted s.part - (s.data.length + n)) (s.left.length - n) :=
    ⟨_, rfl⟩
  have hmin : min (wanted s.part - s.data.length) s.left.length = n + m := by omega
  unfold settle
  simp only [hpart, hdata, hrest, ← hm, hmin, State.moved_moved, add_assoc]

/-- How the bytes arrive does not matter. -/
theorem Filling.safe_settle {s : State} (h : Filling env s) (hdone : s.Done) (hleft : s.left ≠ []) :
    Safe env s ↔ Safe env (settle env s) := by
  obtain ⟨m, hm⟩ : ∃ m, s.left.length = m := ⟨_, rfl⟩
  induction m using Nat.strong_induction_on generalizing s with
  | _ m ih =>
    have hall : ∀ c, (Safe env (step env c s) ↔ Safe env (settle env s)) := by
      intro c
      obtain ⟨n, hpos, hwanted, hlen, hstep⟩ := h.step_count hleft c
      rw [hstep]
      unfold settle
      by_cases hlt : 2 ^ 31 ≤ s.data.length + n
      · rw [if_pos hlt, if_pos (by omega)]
        exact iff_of_false (not_safe_undefined rfl) (not_safe_undefined rfl)
      · rw [if_neg hlt]
        by_cases hnext : s.data.length + n < wanted s.part
        · rw [if_pos hnext]
          have hdata := s.length_data_moved hlen
          have hrest : (s.moved n).left.length = s.left.length - n := List.length_drop
          by_cases hempty : (s.moved n).left = []
          · have hn : s.left.length = n := by
              rw [hempty, List.length_nil] at hrest
              omega
            rw [show min (wanted s.part - s.data.length) s.left.length = n by omega, if_neg hlt,
              if_pos hnext]
          · have hfill : Filling env (s.moved n) :=
              ⟨h.part, h.null, by rw [hdata]; exact hnext, h.small⟩
            rw [ih _ (by omega) hfill hdone hempty hrest, settle_moved hnext.le hlen]
            exact Iff.rfl
        · rw [if_neg hnext, show min (wanted s.part - s.data.length) s.left.length = n by omega,
            if_neg hlt, if_neg hnext]
    rw [safe_iff_step]
    constructor
    · rintro ⟨-, hsafe⟩
      exact (hall 0).mp (hsafe 0)
    · intro hsafe
      exact ⟨hdone, fun c => (hall c).mpr hsafe⟩

/-! ## A message -/

/-- The type in the buffer of a message is that of a handler. -/
def knownType (env : Env) (messageSize : ℕ) (data : List UInt8) : Bool :=
  ofLeBytes ((Buffer.overwrite ((List.range messageSize).map env.garbage) 0 data).take 8) <
    numberOfMsgType

/-- The state behind a message. -/
def State.behind (s : State) (f : Frame) : State :=
  { s with part := .size, data := [], frames := s.frames ++ [f] }

theorem not_safe_behind {s : State} {f : Frame} (h : ¬f.Complete) : ¬Safe env (s.behind f) :=
  not_safe_of_frames (List.mem_append_right _ (List.mem_singleton_self f)) h

/-- Behind a message that is at least as long as its header. -/
theorem dispatch_eq {s : State} {m : ℕ} (hmalloc : env.malloc m = true) (hm : sizeofMessage ≤ m) :
    dispatch env m s = s.behind ⟨m, s.data, knownType env m s.data⟩ := by
  have hsize : 64 ≤ m := hm
  have hsender : ¬m < endofSender := by
    show ¬m < 60
    omega
  unfold dispatch knownType
  rw [if_neg (by simp only [hmalloc, not_true, false_or]; omega)]
  by_cases hknown : numberOfMsgType ≤
      ofLeBytes ((Buffer.overwrite ((List.range m).map env.garbage) 0 s.data).take 8)
  · rw [decide_eq_false (not_lt.mpr hknown)]
    exact if_pos hknown
  · rw [decide_eq_true (not_le.mp hknown)]
    simp only [if_neg hknown, if_neg hsender]
    rfl

/-- A message that is shorter than its header, or has not been received. -/
theorem not_safe_dispatch {s : State} {m : ℕ} (h : ∀ b, ¬(⟨m, s.data, b⟩ : Frame).Complete) :
    ¬Safe env (dispatch env m s) := by
  unfold dispatch
  by_cases hmem : ¬env.malloc m = true ∨ m < 8
  · rw [if_pos hmem]
    exact not_safe_undefined rfl
  · rw [if_neg hmem]
    dsimp only
    split_ifs
    · exact not_safe_behind (h false)
    · exact not_safe_undefined rfl
    · exact not_safe_behind (h true)

/-- What a stream must be behind a size `m`. -/
def CleanBody (env : Env) (s : State) (m : ℕ) : Prop :=
  (env.ending = .error ∧ s.left.length < m ∧ s.left.length < 2 ^ 31) ∨
    (m ≠ 0 ∧ env.malloc m = false ∧ s.left ≠ []) ∨
    (env.malloc m = true ∧ sizeofMessage ≤ m ∧ m < 2 ^ 31 ∧ m ≤ s.left.length ∧
      Safe env ((s.moved m).behind ⟨m, s.left.take m, knownType env m (s.left.take m)⟩))

theorem cleanBody_of_malloc {s : State} {m : ℕ} (hmalloc : env.malloc m = true) :
    CleanBody env s m ↔
      (env.ending = .error ∧ s.left.length < m ∧ s.left.length < 2 ^ 31) ∨
      (sizeofMessage ≤ m ∧ m < 2 ^ 31 ∧ m ≤ s.left.length ∧
        Safe env ((s.moved m).behind ⟨m, s.left.take m, knownType env m (s.left.take m)⟩)) := by
  unfold CleanBody
  rw [hmalloc]
  simp

/-- `Recv_all` of a message for which `malloc` has returned memory. -/
theorem filling_body {s : State} {m : ℕ} (hpart : s.part = .body m) (hlen : s.data.length < m)
    (hm : m < 2 ^ 64) (hmalloc : env.malloc m = true) : Filling env s := by
  have hwanted : wanted s.part = m := by rw [hpart]; rfl
  refine ⟨by rw [hpart]; exact ⟨Part.noConfusion, Part.noConfusion⟩, ?_, by omega, by omega⟩
  rw [hpart]
  show (!env.malloc m) = false
  rw [hmalloc]
  rfl

theorem finish_error {s : State} {m : ℕ} (hpart : s.part = .body m) :
    finish env s (-1) = { s with part := .closed } := by
  unfold finish
  rw [hpart]
  rfl

theorem finish_body {s : State} {m : ℕ} (hpart : s.part = .body m) {value : ℤ}
    (h : value ≠ -1) : finish env s value = dispatch env m s := by
  unfold finish
  rw [hpart]
  exact if_neg h

/-- The stream ends or fails before the message is there. -/
theorem safe_body_cut {s : State} {m : ℕ} (hpart : s.part = .body m) (hdone : s.Done)
    (hlen : s.data.length < m) (hm : m < 2 ^ 64) (hmalloc : env.malloc m = true)
    (hleft : s.left = []) (hseek : s.data.length < 2 ^ 31) : Safe env s ↔ env.ending = .error := by
  have hfill := filling_body hpart hlen hm hmalloc
  cases hending : env.ending with
  | eof =>
    refine iff_of_false ?_ (by simp)
    rcases Nat.eq_zero_or_pos s.data.length with hzero | hpos
    · rw [safe_iff_of_step hdone
        (hfill.step_end hleft hending (List.length_eq_zero_iff.mp hzero)), s.moved_zero,
        finish_body hpart (by omega)]
      apply not_safe_dispatch
      rintro b ⟨-, hb⟩
      have : s.data.length = m := hb
      omega
    · exact hfill.not_safe_end hleft hending hpos hseek
  | error =>
    rw [safe_iff_of_step hdone (hfill.step_error hleft hending), s.moved_zero, finish_error hpart]
    exact iff_of_true (safe_closed hdone rfl) rfl

/-- All bytes of the message are there. -/
theorem safe_body_full {s : State} {m : ℕ} (hpart : s.part = .body m) (hdata : s.data.length = m)
    (hmalloc : env.malloc m = true) :
    Safe env (finish env s m) ↔
      sizeofMessage ≤ m ∧ Safe env (s.behind ⟨m, s.data, knownType env m s.data⟩) := by
  rw [finish_body hpart (by omega)]
  by_cases hsize : sizeofMessage ≤ m
  · rw [dispatch_eq hmalloc hsize]
    exact (and_iff_right hsize).symm
  · exact iff_of_false (not_safe_dispatch fun b hb => hsize hb.1) fun h => hsize h.1

/-- `malloc` has returned memory for the message. -/
theorem safe_body_of_malloc {s : State} {m : ℕ} (hpart : s.part = .body m) (hdata : s.data = [])
    (hdone : s.Done) (hpos : 0 < m) (hm : m < 2 ^ 64) (hmalloc : env.malloc m = true) :
    Safe env s ↔ CleanBody env s m := by
  have hlen : s.data.length = 0 := by rw [hdata]; rfl
  rw [cleanBody_of_malloc hmalloc]
  by_cases hleft : s.left = []
  · have hcount : s.left.length = 0 := by rw [hleft]; rfl
    rw [safe_body_cut hpart hdone (by omega) hm hmalloc hleft (by omega)]
    constructor
    · intro h
      exact Or.inl ⟨h, by omega, by omega⟩
    · rintro (⟨h, -⟩ | ⟨-, -, h, -⟩)
      · exact h
      · omega
  · have hwanted : wanted s.part = m := by rw [hpart]; rfl
    rw [(filling_body hpart (by omega) hm hmalloc).safe_settle hdone hleft]
    unfold settle
    simp only [hwanted, hlen, Nat.sub_zero, Nat.zero_add]
    by_cases hover : 2 ^ 31 ≤ min m s.left.length
    · rw [if_pos hover]
      refine iff_of_false (not_safe_undefined rfl) ?_
      rintro (⟨-, -, h⟩ | ⟨-, h, -⟩) <;> omega
    · rw [if_neg hover]
      by_cases hcut : s.left.length < m
      · have hgot := s.length_data_moved (le_refl s.left.length)
        rw [Nat.min_eq_right hcut.le, if_pos hcut,
          safe_body_cut (s := s.moved s.left.length) hpart hdone (by omega) hm hmalloc
            List.drop_length (by omega)]
        constructor
        · intro h
          exact Or.inl ⟨h, hcut, by omega⟩
        · rintro (⟨h, -⟩ | ⟨-, -, h, -⟩)
          · exact h
          · omega
      · have hle : m ≤ s.left.length := by omega
        have hgot := s.length_data_moved hle
        have htake : (s.moved m).data = s.left.take m := by
          show s.data ++ s.left.take m = _
          rw [hdata, List.nil_append]
        rw [Nat.min_eq_left hle, if_neg (lt_irrefl m),
          safe_body_full (s := s.moved m) hpart (by omega) hmalloc, htake]
        constructor
        · rintro ⟨hsize, hsafe⟩
          exact Or.inr ⟨hsize, by omega, hle, hsafe⟩
        · rintro (⟨-, h, -⟩ | ⟨hsize, -, -, hsafe⟩)
          · omega
          · exact ⟨hsize, hsafe⟩

/-- The first call of `recv` for a message, if it returns no bytes. -/
theorem step_body {s : State} {m : ℕ} (hpart : s.part = .body m) (hdata : s.data = []) {c : ℕ}
    {r : Result} (hr : recv env.ending (!env.malloc m) s.left m c = r) (hbytes : r.bytes = 0) :
    step env c s =
      match turn (BitVec.ofNat 64 m) 0 r with
      | .running _ => s
      | .returned value => finish env s value
      | .undefined => { s with part := .undefined } := by
  obtain ⟨left, part, data, frames⟩ := s
  cases hpart
  cases hdata
  change recv env.ending (!env.malloc m) left m c = r at hr
  unfold step
  rw [if_neg (by rintro (h | h) <;> cases h)]
  simp only [wanted, isNull, List.length_nil, Nat.sub_zero, hr, hbytes, List.drop_zero,
    List.take_zero, List.append_nil]
  rfl

/-- The server has read a size. -/
theorem safe_body {s : State} {m : ℕ} (hpart : s.part = .body m) (hdata : s.data = [])
    (hdone : s.Done) (hm : m < 2 ^ 64) : Safe env s ↔ CleanBody env s m := by
  have hundefined : env.malloc m = false ∨ m = 0 → ¬Safe env (dispatch env m s) := by
    intro h
    unfold dispatch
    rw [if_pos (by
      rcases h with h | rfl
      · exact Or.inl (by rw [h]; exact Bool.false_ne_true)
      · exact Or.inr (by omega))]
    exact not_safe_undefined rfl
  by_cases hzero : m = 0
  · have hstep : ∀ c, step env c s = dispatch env m s := by
      intro c
      rw [step_body (r := .zero) hpart hdata (if_pos hzero) rfl]
      exact finish_body hpart (by omega)
    rw [safe_iff_of_step hdone hstep]
    refine iff_of_false (hundefined (Or.inr hzero)) ?_
    rintro (⟨-, h, -⟩ | ⟨h, -⟩ | ⟨-, h, -⟩)
    · omega
    · exact h hzero
    · unfold sizeofMessage at h
      omega
  · cases hmalloc : env.malloc m with
    | true => exact safe_body_of_malloc hpart hdata hdone (by omega) hm hmalloc
    | false =>
      by_cases hleft : s.left = []
      · cases hending : env.ending with
        | eof =>
          have hstep : ∀ c, step env c s = dispatch env m s := by
            intro c
            rw [step_body (r := .zero) hpart hdata (by
              unfold recv
              rw [if_neg hzero, if_pos hleft, hending]) rfl]
            exact finish_body hpart (by omega)
          rw [safe_iff_of_step hdone hstep]
          refine iff_of_false (hundefined (Or.inl hmalloc)) ?_
          rintro (⟨h, -⟩ | ⟨-, -, h⟩ | ⟨h, -⟩)
          · rw [hending] at h
            cases h
          · exact h hleft
          · rw [hmalloc] at h
            cases h
        | error =>
          have hstep : ∀ c, step env c s = { s with part := .closed } := by
            intro c
            rw [step_body (r := .error) hpart hdata (by
              unfold recv
              rw [if_neg hzero, if_pos hleft, hending]) rfl]
            exact finish_error hpart
          rw [safe_iff_of_step hdone hstep]
          refine iff_of_true (safe_closed hdone rfl) (Or.inl ⟨hending, ?_, ?_⟩)
          · rw [hleft]
            exact Nat.pos_of_ne_zero hzero
          · rw [hleft, List.length_nil]
            omega
      · have hstep : ∀ c, step env c s = { s with part := .closed } := by
          intro c
          rw [step_body (r := .error) hpart hdata (by
            unfold recv
            rw [if_neg hzero, if_neg hleft, hmalloc]
            rfl) rfl]
          exact finish_error hpart
        rw [safe_iff_of_step hdone hstep]
        exact iff_of_true (safe_closed hdone rfl) (Or.inr (Or.inl ⟨hzero, hmalloc, hleft⟩))

/-! ## A stream -/

theorem filling_size {s : State} (hpart : s.part = .size) (hlen : s.data.length < 8) :
    Filling env s := by
  have hwanted : wanted s.part = 8 := by rw [hpart]; rfl
  refine ⟨by rw [hpart]; exact ⟨Part.noConfusion, Part.noConfusion⟩, ?_, by omega, by omega⟩
  rw [hpart]
  rfl

/-- The stream ends or fails before a size is there. -/
theorem safe_size_cut {s : State} (hpart : s.part = .size) (hdone : s.Done)
    (hlen : s.data.length < 8) (hleft : s.left = []) :
    Safe env s ↔ env.ending = .error ∨ s.data.length = 0 := by
  have hfill : Filling env s := filling_size hpart hlen
  have hclosed : ∀ value : ℤ, value = -1 ∨ value = 0 →
      finish env s value = { s with part := .closed } := by
    intro value hvalue
    unfold finish
    rw [hpart]
    exact if_pos hvalue
  cases hending : env.ending with
  | eof =>
    rcases Nat.eq_zero_or_pos s.data.length with hzero | hpos
    · rw [safe_iff_of_step hdone
        (hfill.step_end hleft hending (List.length_eq_zero_iff.mp hzero)), s.moved_zero,
        hclosed 0 (Or.inr rfl)]
      exact iff_of_true (safe_closed hdone rfl) (Or.inr hzero)
    · refine iff_of_false (hfill.not_safe_end hleft hending hpos (by omega)) ?_
      rintro (h | h)
      · cases h
      · omega
  | error =>
    rw [safe_iff_of_step hdone (hfill.step_error hleft hending), s.moved_zero,
      hclosed (-1) (Or.inl rfl)]
    exact iff_of_true (safe_closed hdone rfl) (Or.inl rfl)

/-- In front of a size. -/
def State.next (stream : List UInt8) (frames : List Frame) : State := ⟨stream, .size, [], frames⟩

/-- Fewer bytes than a size are left. -/
theorem safe_short {stream : List UInt8} {frames : List Frame}
    (hdone : (State.next stream frames).Done) (hlen : stream.length < 8) :
    Safe env (.next stream frames) ↔ env.ending = .error ∨ stream = [] := by
  by_cases hleft : stream = []
  · subst hleft
    rw [safe_size_cut rfl hdone (by simp [State.next]) rfl]
    simp [State.next]
  · have hmin : min (8 - 0) stream.length = stream.length := by omega
    rw [(filling_size rfl (by simp [State.next])).safe_settle hdone hleft]
    have hgot := (State.next stream frames).length_data_moved (le_refl stream.length)
    have hzero : (State.next stream frames).data.length = 0 := rfl
    have hmoved : settle env (.next stream frames) = (State.next stream frames).moved
        stream.length := by
      unfold settle
      rw [hzero]
      show (if 2 ^ 31 ≤ 0 + min (8 - 0) stream.length then _ else
        if 0 + min (8 - 0) stream.length < 8 then
          (State.next stream frames).moved (min (8 - 0) stream.length) else _) = _
      rw [hmin, if_neg (by omega), if_pos (by omega)]
    have hpos := List.length_pos_of_ne_nil hleft
    rw [hmoved, safe_size_cut (s := (State.next stream frames).moved stream.length) rfl hdone
      (by omega) List.drop_length]
    constructor
    · rintro (h | h)
      · exact Or.inl h
      · omega
    · rintro (h | h)
      · exact Or.inl h
      · exact absurd h hleft

/-- Behind a size. -/
theorem safe_long {size : List UInt8} (rest : List UInt8) {frames : List Frame}
    (hdone : (State.next rest frames).Done) (hsize : size.length = 8) :
    Safe env (.next (size ++ rest) frames) ↔
      Safe env ⟨rest, .body (ofLeBytes size), [], frames⟩ := by
  have hleft : (State.next (size ++ rest) frames).left ≠ [] := by
    intro h
    have := congrArg List.length h
    simp [State.next, hsize] at this
  have hmin : min (8 - 0) (size ++ rest).length = 8 := by
    rw [List.length_append]
    omega
  have hfill : Filling env (.next (size ++ rest) frames) :=
    filling_size rfl (by simp [State.next])
  rw [hfill.safe_settle hdone hleft]
  have hsettle : settle env (.next (size ++ rest) frames) =
      ⟨rest, .body (ofLeBytes size), [], frames⟩ := by
    unfold settle
    show (if 2 ^ 31 ≤ 0 + min (8 - 0) (size ++ rest).length then _ else
      if 0 + min (8 - 0) (size ++ rest).length < 8 then _ else
        finish env ((State.next (size ++ rest) frames).moved (min (8 - 0) (size ++ rest).length))
          (0 + min (8 - 0) (size ++ rest).length : ℕ)) = _
    rw [hmin, if_neg (by omega), if_neg (by omega)]
    have hmoved : (State.next (size ++ rest) frames).moved 8 = ⟨rest, .size, size, frames⟩ := by
      unfold State.moved State.next
      rw [← hsize]
      simp
    rw [hmoved]
    rfl
  rw [hsettle]

/-- A clean stream that begins with a size. -/
theorem cleanStream_size {size rest : List UInt8} (hsize : size.length = 8) :
    CleanStream env (size ++ rest) ↔
      (env.ending = .error ∧ rest.length < ofLeBytes size ∧ rest.length < 2 ^ 31) ∨
      (ofLeBytes size ≠ 0 ∧ env.malloc (ofLeBytes size) = false ∧ rest ≠ []) ∨
      (env.malloc (ofLeBytes size) = true ∧ sizeofMessage ≤ ofLeBytes size ∧
        ofLeBytes size < 2 ^ 31 ∧ ofLeBytes size ≤ rest.length ∧
        CleanStream env (rest.drop (ofLeBytes size))) := by
  constructor
  · intro h
    obtain ⟨stream, hstream⟩ : ∃ stream, stream = size ++ rest := ⟨_, rfl⟩
    rw [← hstream] at h
    cases h with
    | ended h =>
      have hlen := congrArg List.length hstream
      rw [List.length_append, hsize, List.length_nil] at hlen
      omega
    | lostSize _ h hlen =>
      rw [hstream, List.length_append] at hlen
      omega
    | lostBody size' rest' h hsize' hlen hseek =>
      obtain ⟨rfl, rfl⟩ := List.append_inj hstream (by omega)
      exact Or.inl ⟨h, hlen, hseek⟩
    | noMemory size' rest' hsize' hpos hmalloc hrest =>
      obtain ⟨rfl, rfl⟩ := List.append_inj hstream (by omega)
      exact Or.inr (Or.inl ⟨hpos, hmalloc, hrest⟩)
    | frame size' body rest' hsize' hbody hle hlt hmalloc hrest =>
      obtain ⟨rfl, rfl⟩ := List.append_inj hstream (by omega)
      refine Or.inr (Or.inr ⟨hmalloc, by omega, by omega, ?_, ?_⟩)
      · rw [List.length_append]
        omega
      · rw [← hbody, List.drop_left]
        exact hrest
  · rintro (⟨h, hlen, hseek⟩ | ⟨hpos, hmalloc, hrest⟩ | ⟨hmalloc, hle, hlt, hlen, hrest⟩)
    · exact .lostBody size rest h hsize hlen hseek
    · exact .noMemory size rest hsize hpos hmalloc hrest
    · have hbody : (rest.take (ofLeBytes size)).length = ofLeBytes size := by
        rw [List.length_take, Nat.min_eq_left hlen]
      rw [← List.take_append_drop (ofLeBytes size) rest]
      exact .frame size _ _ hsize hbody (by omega) (by omega) hmalloc hrest

theorem cleanStream_short {stream : List UInt8} (hlen : stream.length < 8) :
    CleanStream env stream ↔ env.ending = .error ∨ stream = [] := by
  constructor
  · intro h
    cases h with
    | ended => exact Or.inr rfl
    | lostSize _ h => exact Or.inl h
    | lostBody _ _ _ hsize | noMemory _ _ hsize | frame _ _ _ hsize =>
      rw [List.length_append] at hlen
      omega
  · rintro (h | rfl)
    · exact .lostSize stream h hlen
    · cases hending : env.ending with
      | eof => exact .ended hending
      | error => exact .lostSize [] hending hlen

theorem ofLeBytes_lt {bs : List UInt8} (h : bs.length = 8) : ofLeBytes bs < 2 ^ 64 := by
  have hlt : Nat.ofDigits 256 (bs.map UInt8.toNat) < 256 ^ (bs.map UInt8.toNat).length := by
    apply Nat.ofDigits_lt_base_pow_length (by omega)
    intro d hd
    obtain ⟨b, -, rfl⟩ := List.mem_map.mp hd
    exact b.toNat_lt
  rw [List.length_map, h] at hlt
  exact hlt

/-- From frame to frame. -/
theorem safe_next_iff (stream : List UInt8) {frames : List Frame}
    (hdone : (State.next stream frames).Done) :
    Safe env (.next stream frames) ↔ CleanStream env stream := by
  obtain ⟨n, hn⟩ : ∃ n, stream.length = n := ⟨_, rfl⟩
  induction n using Nat.strong_induction_on generalizing stream frames with
  | _ n ih =>
    by_cases hlen : stream.length < 8
    · rw [safe_short hdone hlen, cleanStream_short hlen]
    · obtain ⟨size, rest, rfl, hsize⟩ : ∃ size rest, stream = size ++ rest ∧ size.length = 8 := by
        refine ⟨stream.take 8, stream.drop 8, (List.take_append_drop 8 stream).symm, ?_⟩
        rw [List.length_take]
        omega
      rw [safe_long rest hdone hsize, cleanStream_size hsize,
        safe_body (s := ⟨rest, .body (ofLeBytes size), [], frames⟩) rfl rfl hdone
          (ofLeBytes_lt hsize)]
      obtain ⟨m, hm⟩ : ∃ m, m = ofLeBytes size := ⟨_, rfl⟩
      rw [← hm]
      unfold CleanBody
      apply or_congr_right
      apply or_congr_right
      apply and_congr_right
      intro _
      apply and_congr_right
      intro hle
      apply and_congr_right
      intro _
      apply and_congr_right
      intro hrest
      apply ih (rest.drop m).length _ (rest.drop m) _ rfl
      · rw [List.length_append] at hn
        rw [List.length_drop]
        omega
      · intro f hf
        rcases List.mem_append.mp hf with hf | hf
        · exact hdone f hf
        · rw [List.mem_singleton.mp hf]
          refine ⟨hle, ?_⟩
          show (rest.take m).length = m
          rw [List.length_take, Nat.min_eq_left hrest]

/-- `server_thread` goes on only behind complete frames, and else closes the connection, exactly on
the clean streams. -/
theorem server_safe_iff (env : Env) (stream : List UInt8) :
    Safe env (.start stream) ↔ CleanStream env stream := by
  apply safe_next_iff
  intro f hf
  cases hf

/-- A peer announces a message of 64 bytes and closes the connection. -/
theorem server_unsafe_eof :
    ¬Safe ⟨.eof, fun _ => true, fun _ => 0⟩ (.start [64, 0, 0, 0, 0, 0, 0, 0]) := by
  intro hsafe
  obtain ⟨hframes, -⟩ := hsafe fun _ => 8
  have hframe : (⟨64, [], true⟩ : Frame) ∈
      (after ⟨.eof, fun _ => true, fun _ => 0⟩ (fun _ => 8) 2
        (.start [64, 0, 0, 0, 0, 0, 0, 0])).frames := by
    decide
  have hempty : 0 = 64 := (hframes 2 _ hframe).2
  omega

end Receive
