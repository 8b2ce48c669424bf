import Psar.Connection.Framing
import Psar.Connection.Proofs.RecvAllProofs
import Psar.Library.Proofs.FramingProofs
import Psar.Library.Proofs.NetworkProofs

/-!
# Proofs: frames on one connection

Whatever `send` and `recv` transfer at a time and however the senders interleave, the stream is the
concatenation of the frames in the order of `lock_send`, and the receiver delivers their messages.
-/

namespace Connection

variable {Thread : Type} [DecidableEq Thread]

/-! ## One turn of a loop -/

theorem addSeek_eq_some {seek ret n : ℕ} (h : addSeek seek ret = some n) : n = seek + ret := by
  unfold addSeek at h
  split at h <;> simp_all

theorem addSeek_of_lt {seek ret : ℕ} (h : seek + ret < 2 ^ 31) :
    addSeek seek ret = some (seek + ret) := if_pos h

theorem sendAll_spec {data out : List UInt8} {seek ret seek' : ℕ}
    (h : sendAll data seek ret = some (out, seek')) :
    1 ≤ ret ∧ out.length = ret ∧ seek' = seek + ret ∧ seek' ≤ data.length ∧
      out ++ data.drop seek' = data.drop seek := by
  unfold sendAll at h
  split at h
  · rename_i hret
    obtain ⟨n, hn, heq⟩ := Option.map_eq_some_iff.mp h
    cases heq
    have hseek := addSeek_eq_some hn
    refine ⟨hret.1, ?_, hseek, ?_, ?_⟩
    · rw [List.length_take, List.length_drop]
      omega
    · omega
    · rw [hseek, ← List.drop_drop, List.take_append_drop]
  · cases h

/-- Only a call that holds `lock_send` writes. -/
theorem Call.send_stage {c c' : Call} {ret : ℕ} {out : List UInt8}
    (h : c.send ret = some (c', out)) : c.stage ≠ .lock ∧ c'.stage ≠ .lock := by
  unfold Call.send at h
  split at h
  · rename_i seek hstage
    obtain ⟨r, -, heq⟩ := Option.map_eq_some_iff.mp h
    cases heq
    rw [hstage]
    refine ⟨by simp, ?_⟩
    show (if 0 < 8 - r.2 then Stage.size r.2 else .body 0) ≠ .lock
    split <;> simp
  · rename_i seek hstage
    obtain ⟨r, -, heq⟩ := Option.map_eq_some_iff.mp h
    cases heq
    rw [hstage]
    refine ⟨by simp, ?_⟩
    show (if 0 < c.message.length - r.2 then Stage.body r.2 else .unlock) ≠ .lock
    split <;> simp
  · cases h

/-- A turn writes the next bytes of what the call has still to write. -/
theorem Call.send_spec {c c' : Call} {ret : ℕ} {out : List UInt8} (hpos : 1 ≤ c.message.length)
    (h : c.send ret = some (c', out)) :
    c'.message = c.message ∧ c'.Running ∧
      out ++ c'.rest = c.rest ∧ c.work = c'.work + 2 * out.length ∧ 1 ≤ out.length := by
  obtain ⟨m, stage⟩ := c
  cases stage with
  | lock => cases h
  | unlock => cases h
  | size seek =>
    obtain ⟨⟨o, seek'⟩, hr, heq⟩ := Option.map_eq_some_iff.mp h
    cases heq
    obtain ⟨hret, hlen, hseek, hle, hdrop⟩ := sendAll_spec hr
    have henc : (sizeHeader.encode m.length).length = 8 := sizeHeader.length_encode m.length
    rw [henc] at hle
    simp only at hpos hr hdrop ⊢
    by_cases hmore : 0 < 8 - seek'
    · refine ⟨trivial, ?_, ?_, ?_, by omega⟩
      · simp only [Call.Running, if_pos hmore]
        omega
      · simp only [Call.rest, if_pos hmore]
        rw [← List.append_assoc, hdrop]
      · have hlength := congrArg List.length hdrop
        simp only [List.length_append, List.length_drop, henc] at hlength
        simp only [Call.work, Call.rest, if_pos hmore, List.length_append, List.length_drop, henc]
        omega
    · have hfull : (sizeHeader.encode m.length).drop seek' = [] := by
        apply List.drop_eq_nil_of_le
        omega
      rw [hfull, List.append_nil] at hdrop
      refine ⟨trivial, ?_, ?_, ?_, by omega⟩
      · simp only [Call.Running, if_neg hmore]
        omega
      · simp only [Call.rest, if_neg hmore, List.drop_zero]
        rw [hdrop]
      · have hlength := congrArg List.length hdrop
        simp only [List.length_drop, henc] at hlength
        simp only [Call.work, Call.rest, if_neg hmore, List.length_append, List.length_drop, henc]
        omega
  | body seek =>
    obtain ⟨⟨o, seek'⟩, hr, heq⟩ := Option.map_eq_some_iff.mp h
    cases heq
    obtain ⟨hret, hlen, hseek, hle, hdrop⟩ := sendAll_spec hr
    simp only at hpos hr hdrop hle ⊢
    by_cases hmore : 0 < m.length - seek'
    · refine ⟨trivial, ?_, ?_, ?_, by omega⟩
      · simp only [Call.Running, if_pos hmore]
        omega
      · simp only [Call.rest, if_pos hmore]
        exact hdrop
      · simp only [Call.work, Call.rest, if_pos hmore, List.length_drop]
        omega
    · have hfull : m.drop seek' = [] := by
        apply List.drop_eq_nil_of_le
        omega
      rw [hfull, List.append_nil] at hdrop
      refine ⟨trivial, ?_, ?_, ?_, by omega⟩
      · simp only [Call.Running, if_neg hmore]
      · simp only [Call.rest, if_neg hmore, List.append_nil]
        exact hdrop
      · simp only [Call.work, Call.rest, if_neg hmore, List.length_drop]
        omega

theorem waiting_none (m : List UInt8) : waiting m none = 0 := rfl

theorem waiting_lock (m m' : List UInt8) :
    waiting m (some ⟨m', .lock⟩) = if m' = m then 1 else 0 := rfl

theorem waiting_of_ne (m : List UInt8) {c : Call} (h : c.stage ≠ .lock) :
    waiting m (some c) = 0 := by
  obtain ⟨m', stage⟩ := c
  cases stage <;> first | rfl | exact absurd rfl h

/-- A turn of `Recv_all` feeds the receiver with the next bytes. -/
theorem recvAll_spec {r r' : Framing.Reader UInt8} {arrived : List UInt8} {ret : ℕ}
    (h : recvAll r arrived ret = some r') :
    1 ≤ ret ∧ ret ≤ arrived.length ∧ r' = (arrived.take ret).foldl sizeHeader.feed r := by
  unfold recvAll at h
  split at h
  · rename_i hret
    obtain ⟨n, -, rfl⟩ := Option.map_eq_some_iff.mp h
    refine ⟨hret.1, hret.2.2, ?_⟩
    have hlen : (arrived.take ret).length = ret := by
      rw [List.length_take]
      omega
    rw [Framing.Header.feed_chunk]
    · rw [← List.length_pos_iff, hlen]
      exact hret.1
    · rw [hlen]
      omega
  · cases h

/-- A turn of `Recv_all` on bytes that have arrived is the turn of `Receive` in which `recv` returns
their number: it goes on as long as the part is not full. -/
theorem turn_of_recvAll {r r' : Framing.Reader UInt8} {arrived : List UInt8} {ret : ℕ}
    (h : recvAll r arrived ret = some r') (hwanted : sizeHeader.wanted r < 2 ^ 64) :
    (r.data.length + ret < sizeHeader.wanted r ∧
      r' = { r with data := r.data ++ arrived.take ret } ∧
      Receive.turn (BitVec.ofNat 64 (sizeHeader.wanted r)) r.data.length (.count ret) =
        .running (r.data.length + ret : ℕ)) ∨
    (r.data.length + ret = sizeHeader.wanted r ∧
      Receive.turn (BitVec.ofNat 64 (sizeHeader.wanted r)) r.data.length (.count ret) =
        .returned (sizeHeader.wanted r : ℕ)) := by
  unfold recvAll at h
  split at h
  · rename_i hret
    obtain ⟨n, hseek, rfl⟩ := Option.map_eq_some_iff.mp h
    have hlt : r.data.length + ret < 2 ^ 31 := by
      unfold addSeek at hseek
      split at hseek
      · assumption
      · cases hseek
    have hsize : (BitVec.ofNat 64 (sizeHeader.wanted r)).toNat = sizeHeader.wanted r := by
      rw [BitVec.toNat_ofNat, Nat.mod_eq_of_lt hwanted]
    have hturn := @Receive.turn_count (BitVec.ofNat 64 (sizeHeader.wanted r)) r.data.length ret
      hret.1 (by omega) hlt
    rw [hsize] at hturn
    by_cases hfull : r.data.length + ret < sizeHeader.wanted r
    · rw [if_pos hfull] at hturn
      refine Or.inl ⟨hfull, ?_, hturn⟩
      have hlen : (r.data ++ arrived.take ret).length < sizeHeader.wanted r := by
        rw [List.length_append, List.length_take]
        omega
      exact if_pos hlen
    · have heq : r.data.length + ret = sizeHeader.wanted r := by omega
      rw [if_neg hfull, heq] at hturn
      exact Or.inr ⟨heq, hturn⟩
  · cases h

/-! ## The invariant -/

section Steps

variable {s s' : Conn Thread}

/-- A message of one byte to `INT_MAX` bytes fits into a frame. -/
theorem valid_of_size {m : List UInt8} (h : 1 ≤ m.length ∧ m.length ≤ 2 ^ 31 - 1) :
    sizeHeader.Valid m := by
  refine ⟨h.1, ?_⟩
  show m.length < 2 ^ 64
  omega

omit [DecidableEq Thread] in
theorem Inv.lockSend_eq (h : Inv s) {t : Thread} {c : Call} (hc : s.call t = some c)
    (hstage : c.stage ≠ .lock) : s.lockSend = some t := (h.lock t).mpr ⟨c, hc, hstage⟩

/-- The call of a thread that does not hold `lock_send` has nothing on the stream. -/
theorem rest_update {t : Thread} (ht : s.lockSend ≠ some t) (c : Option Call) :
    Conn.rest { s with call := Function.update s.call t c } = s.rest := by
  unfold Conn.rest
  cases hl : s.lockSend with
  | none => rfl
  | some u =>
    have hu : u ≠ t := by
      rintro rfl
      exact ht hl
    simp [hu]

omit [DecidableEq Thread] in
theorem rest_of_holder {t : Thread} {c : Call} (hl : s.lockSend = some t)
    (hc : s.call t = some c) : s.rest = c.rest := by
  simp [Conn.rest, hl, hc]

omit [DecidableEq Thread] in
theorem inv_init : Inv (initConn : Conn Thread) := by
  refine ⟨?_, ?_, ?_, ?_, rfl, Nat.le_refl 0, rfl⟩
  · intro t
    simp [initConn]
  · intro t c hc
    cases hc
  · intro t c hc
    cases hc
  · intro m hm
    cases hm

/-- What holds of the calls of the other threads and of the new call of `t`. -/
theorem forall_update {P : Call → Prop} {t : Thread} {c' : Option Call}
    (h : ∀ u, ∀ c ∈ s.call u, P c) (hc' : ∀ c ∈ c', P c) :
    ∀ u, ∀ c ∈ Function.update s.call t c' u, P c := by
  intro u c hc
  by_cases hu : u = t
  · subst hu
    rw [Function.update_self] at hc
    exact hc' c hc
  · rw [Function.update_of_ne hu] at hc
    exact h u c hc

theorem inv_call (h : Inv s) {t : Thread} {m : List UInt8} (hc : s.call t = none)
    (hm : 1 ≤ m.length ∧ m.length ≤ 2 ^ 31 - 1) :
    Inv { s with call := Function.update s.call t (some ⟨m, .lock⟩) } := by
  have ht : s.lockSend ≠ some t := by
    intro hl
    obtain ⟨c, hc', -⟩ := (h.lock t).mp hl
    rw [hc] at hc'
    cases hc'
  refine ⟨?_, ?_, ?_, h.taken, ?_, h.pos, h.server⟩
  · intro u
    by_cases hu : u = t
    · subst hu
      simp [ht]
    · simpa [hu] using h.lock u
  · refine forall_update h.running ?_
    rintro c ⟨⟩
    trivial
  · refine forall_update (P := fun c => 1 ≤ c.message.length ∧ c.message.length ≤ 2 ^ 31 - 1)
      h.sizes ?_
    rintro c ⟨⟩
    exact hm
  · rw [rest_update ht]
    exact h.frames

theorem inv_lock (h : Inv s) {t : Thread} {m : List UInt8} (hl : s.lockSend = none)
    (hc : s.call t = some ⟨m, .lock⟩) :
    Inv { s with
      lockSend := some t
      call := Function.update s.call t (some ⟨m, .size 0⟩)
      taken := s.taken ++ [m] } := by
  have hm := h.sizes t _ hc
  refine ⟨?_, ?_, ?_, ?_, ?_, h.pos, h.server⟩
  · intro u
    by_cases hu : u = t
    · subst hu
      simp
    · have hnone := h.lock u
      rw [hl] at hnone
      simp only [Option.some.injEq, Function.update_of_ne hu]
      simpa [Ne.symm hu] using hnone
  · refine forall_update h.running ?_
    rintro c ⟨⟩
    show 0 < 8
    omega
  · refine forall_update (P := fun c => 1 ≤ c.message.length ∧ c.message.length ≤ 2 ^ 31 - 1)
      h.sizes ?_
    rintro c ⟨⟩
    exact hm
  · intro m' hm'
    rcases List.mem_append.mp hm' with hm' | hm'
    · exact h.taken m' hm'
    · rw [List.mem_singleton.mp hm']
      exact hm
  · have hframes := h.frames
    have hrest : s.rest = [] := by simp [Conn.rest, hl]
    rw [hrest, List.append_nil] at hframes
    simp [Conn.rest, Call.rest, hframes, Framing.Header.frames_append, Framing.Header.frames_cons,
      Framing.Header.frame]

theorem inv_send (h : Inv s) {t : Thread} {c c' : Call} {ret : ℕ} {out : List UInt8}
    (hc : s.call t = some c) (hsend : c.send ret = some (c', out)) :
    Inv { s with call := Function.update s.call t (some c'), stream := s.stream ++ out } := by
  have hsize := h.sizes t c hc
  obtain ⟨hstage, hstage'⟩ := Call.send_stage hsend
  obtain ⟨hmsg, hrun, hrest, -, -⟩ := Call.send_spec hsize.1 hsend
  have hl := h.lockSend_eq hc hstage
  refine ⟨?_, ?_, ?_, h.taken, ?_, ?_, ?_⟩
  · intro u
    by_cases hu : u = t
    · subst hu
      simp [hl, hstage']
    · simpa [hu] using h.lock u
  · refine forall_update h.running ?_
    rintro c ⟨⟩
    exact hrun
  · refine forall_update (P := fun c => 1 ≤ c.message.length ∧ c.message.length ≤ 2 ^ 31 - 1)
      h.sizes ?_
    rintro c ⟨⟩
    rw [hmsg]
    exact hsize
  · have hframes := h.frames
    rw [rest_of_holder hl hc, ← hrest, ← List.append_assoc] at hframes
    simpa [Conn.rest, hl] using hframes
  · have hpos := h.pos
    simp only [List.length_append]
    omega
  · show s.server = _
    rw [h.server, List.take_append_of_le_length h.pos]

theorem inv_unlock (h : Inv s) {t : Thread} {m : List UInt8} (hc : s.call t = some ⟨m, .unlock⟩) :
    Inv { s with lockSend := none, call := Function.update s.call t none } := by
  have hl := h.lockSend_eq hc (by simp)
  refine ⟨?_, ?_, ?_, h.taken, ?_, h.pos, h.server⟩
  · intro u
    by_cases hu : u = t
    · subst hu
      simp
    · have hu' := h.lock u
      rw [hl] at hu'
      simp only [Function.update_of_ne hu]
      simpa [Ne.symm hu] using hu'
  · refine forall_update h.running ?_
    rintro c ⟨⟩
  · refine forall_update (P := fun c => 1 ≤ c.message.length ∧ c.message.length ≤ 2 ^ 31 - 1)
      h.sizes ?_
    rintro c ⟨⟩
  · have hframes := h.frames
    rw [rest_of_holder hl hc] at hframes
    exact hframes

omit [DecidableEq Thread] in
theorem inv_recv (h : Inv s) {r : Framing.Reader UInt8} {ret : ℕ}
    (hr : recvAll s.server (s.stream.drop s.pos) ret = some r) :
    Inv { s with server := r, pos := s.pos + ret } := by
  obtain ⟨-, hle, heq⟩ := recvAll_spec hr
  have hpos := h.pos
  rw [List.length_drop] at hle
  refine ⟨h.lock, h.running, h.sizes, h.taken, h.frames, ?_, ?_⟩
  · show s.pos + ret ≤ s.stream.length
    omega
  · show r = _
    rw [heq, h.server, ← List.foldl_append, List.take_add]

/-- What a step can do. -/
theorem step_cases {e : Event Thread} (h : step s e = some s') :
    (∃ t m, e = .call t m ∧ s.call t = none ∧
      s' = { s with call := Function.update s.call t (some ⟨m, .lock⟩) }) ∨
    (∃ t m, e = .lock t ∧ s.lockSend = none ∧ s.call t = some ⟨m, .lock⟩ ∧ s' = { s with
      lockSend := some t
      call := Function.update s.call t (some ⟨m, .size 0⟩)
      taken := s.taken ++ [m] }) ∨
    (∃ t ret c c' out, e = .send t ret ∧ s.call t = some c ∧ c.send ret = some (c', out) ∧
      s' = { s with call := Function.update s.call t (some c'), stream := s.stream ++ out }) ∨
    (∃ t m, e = .unlock t ∧ s.call t = some ⟨m, .unlock⟩ ∧
      s' = { s with lockSend := none, call := Function.update s.call t none }) ∨
    (∃ ret r, e = .recv ret ∧ recvAll s.server (s.stream.drop s.pos) ret = some r ∧
      s' = { s with server := r, pos := s.pos + ret }) := by
  cases e with
  | call t m =>
    simp only [step] at h
    split at h
    · rename_i hc
      cases h
      exact Or.inl ⟨t, m, rfl, hc, rfl⟩
    · cases h
  | lock t =>
    simp only [step] at h
    split at h
    · rename_i m hl hc
      cases h
      exact Or.inr (Or.inl ⟨t, m, rfl, hl, hc, rfl⟩)
    · cases h
  | send t ret =>
    obtain ⟨c, hc, hturn⟩ := Option.bind_eq_some_iff.mp h
    obtain ⟨⟨c', out⟩, hsend, rfl⟩ := Option.map_eq_some_iff.mp hturn
    exact Or.inr (Or.inr (Or.inl ⟨t, ret, c, c', out, rfl, hc, hsend, rfl⟩))
  | unlock t =>
    simp only [step] at h
    split at h
    · rename_i m hc
      cases h
      exact Or.inr (Or.inr (Or.inr (Or.inl ⟨t, m, rfl, hc, rfl⟩)))
    · cases h
  | recv ret =>
    obtain ⟨r, hr, rfl⟩ := Option.map_eq_some_iff.mp h
    exact Or.inr (Or.inr (Or.inr (Or.inr ⟨ret, r, rfl, hr, rfl⟩)))

theorem inv_step (h : Inv s) {e : Event Thread} (hok : sizeOk e = true)
    (hstep : step s e = some s') : Inv s' := by
  obtain ⟨t, m, rfl, hc, rfl⟩ | ⟨t, m, -, hl, hc, rfl⟩ | ⟨t, ret, c, c', out, -, hc, hsend, rfl⟩ |
    ⟨t, m, -, hc, rfl⟩ | ⟨ret, r, -, hr, rfl⟩ := step_cases hstep
  · exact inv_call h hc (of_decide_eq_true hok)
  · exact inv_lock h hl hc
  · exact inv_send h hc hsend
  · exact inv_unlock h hc
  · exact inv_recv h hr

/-! ## Progress -/

omit [DecidableEq Thread] in
/-- What the receiver has read is a part of the frames. -/
theorem Inv.isPrefix (h : Inv s) (n : ℕ) : s.stream.take n <+: sizeHeader.frames s.taken := by
  rw [← h.frames]
  exact (List.take_prefix n s.stream).trans (List.prefix_append s.stream s.rest)

omit [DecidableEq Thread] in
theorem Inv.valid (h : Inv s) : ∀ m ∈ s.taken, sizeHeader.Valid m :=
  fun m hm => valid_of_size (h.taken m hm)

/-- A call that holds `lock_send` can go on: `send` may take a byte, or the call returns. -/
theorem Inv.holder_moves (h : Inv s) {t : Thread} {c : Call} (hc : s.call t = some c)
    (hstage : c.stage ≠ .lock) : ∃ e, isCall e = false ∧ (step s e).isSome := by
  have hrun := h.running t c hc
  have hsize := h.sizes t c hc
  obtain ⟨m, stage⟩ := c
  cases stage with
  | lock => exact absurd rfl hstage
  | size seek =>
    have hlen : (sizeHeader.encode m.length).length = 8 := sizeHeader.length_encode m.length
    have hseek : seek < 8 := hrun
    have hturn : sendAll (sizeHeader.encode m.length) seek 1 =
        some (((sizeHeader.encode m.length).drop seek).take 1, seek + 1) := by
      unfold sendAll
      rw [if_pos (by omega), addSeek_of_lt (by omega)]
      rfl
    exact ⟨.send t 1, rfl, by simp [step, hc, Call.send, hturn]⟩
  | body seek =>
    have hseek : seek < m.length := hrun
    have hturn : sendAll m seek 1 = some ((m.drop seek).take 1, seek + 1) := by
      unfold sendAll
      rw [if_pos (by omega), addSeek_of_lt (by simp only at hsize; omega)]
      rfl
    exact ⟨.send t 1, rfl, by simp [step, hc, Call.send, hturn]⟩
  | unlock => exact ⟨.unlock t, rfl, by simp [step, hc]⟩

/-- The receiver can go on as long as there are bytes that it has not read. -/
theorem Inv.receiver_moves (h : Inv s) (hpos : s.pos < s.stream.length) :
    (step s (.recv 1)).isSome := by
  obtain ⟨hopen, hbody⟩ := Framing.Header.open_of_isPrefix h.valid (h.isPrefix s.pos) []
  change sizeHeader.Open (List.foldl sizeHeader.feed Framing.Reader.start _) at hopen
  change ∀ n, (List.foldl sizeHeader.feed Framing.Reader.start _).part = _ → _ at hbody
  rw [← h.server] at hopen hbody
  have hwanted : sizeHeader.wanted s.server ≤ 2 ^ 31 - 1 := by
    unfold Framing.Header.wanted
    split
    · show 8 ≤ 2 ^ 31 - 1
      omega
    · rename_i n hn
      obtain ⟨m, hm, rfl⟩ := hbody n hn
      exact (h.taken m hm).2
  have hlt : s.server.data.length < sizeHeader.wanted s.server := hopen
  have harrived : 1 ≤ (s.stream.drop s.pos).length := by
    rw [List.length_drop]
    omega
  simp only [step, recvAll]
  rw [if_pos ⟨Nat.le_refl 1, by omega, harrived⟩, addSeek_of_lt (by omega)]
  rfl

/-- As long as a message has not been received, something can go on. -/
theorem Inv.moves (h : Inv s) (hdone : ¬ s.Done) : ∃ e, isCall e = false ∧ (step s e).isSome := by
  by_cases hidle : ∀ t, s.call t = none
  · have hpos : s.pos < s.stream.length := by
      have hle := h.pos
      have hne : s.pos ≠ s.stream.length := fun heq => hdone ⟨hidle, heq⟩
      omega
    exact ⟨.recv 1, rfl, h.receiver_moves hpos⟩
  · obtain ⟨t, ht⟩ := not_forall.mp hidle
    obtain ⟨c, hc⟩ := Option.ne_none_iff_exists'.mp ht
    cases hl : s.lockSend with
    | none =>
      -- nobody holds `lock_send`, and the thread waits for it
      have hstage : c.stage = .lock := by
        by_contra hne
        have hholder := h.lockSend_eq hc hne
        rw [hl] at hholder
        cases hholder
      obtain ⟨m, stage⟩ := c
      cases hstage
      exact ⟨.lock t, rfl, by simp [step, hl, hc]⟩
    | some u =>
      obtain ⟨c', hc', hstage⟩ := (h.lock u).mp hl
      exact h.holder_moves hc' hstage

/-- Every step but a new call leaves less to do. -/
theorem work_step [Fintype Thread] (h : Inv s) {e : Event Thread} (he : isCall e = false)
    (hstep : step s e = some s') : s'.work < s.work := by
  have hsum := Network.sum_update (fun _ (c : Option Call) => c.elim 0 Call.work) s.call
  unfold Conn.work
  obtain ⟨t, m, rfl, -, -⟩ | ⟨t, m, -, -, hc, rfl⟩ | ⟨t, ret, c, c', out, -, hc, hsend, rfl⟩ |
    ⟨t, m, -, hc, rfl⟩ | ⟨ret, r, -, hr, rfl⟩ := step_cases hstep
  · cases he
  · have hw := hsum t (some ⟨m, .size 0⟩)
    have hlen : (sizeHeader.encode m.length).length = 8 := sizeHeader.length_encode m.length
    simp only [hc, Option.elim_some, Call.work, Call.rest, List.drop_zero, List.length_append,
      hlen] at hw
    simp only
    omega
  · have hw := hsum t (some c')
    obtain ⟨-, -, -, hwork, hlen⟩ := Call.send_spec (h.sizes t c hc).1 hsend
    have hpos := h.pos
    simp only [hc, Option.elim_some] at hw
    simp only [List.length_append]
    omega
  · have hw := hsum t none
    simp only [hc, Option.elim_some, Option.elim_none, Call.work] at hw
    simp only
    omega
  · obtain ⟨hret, hle, -⟩ := recvAll_spec hr
    rw [List.length_drop] at hle
    simp only
    omega

end Steps

/-! ## Runs -/

section Run

variable [Fintype Thread] {s : Conn Thread} {es : List (Event Thread)}

omit [DecidableEq Thread] [Fintype Thread] in
theorem called_append (es es' : List (Event Thread)) :
    called (es ++ es') = called es ++ called es' := by
  induction es with
  | nil => rfl
  | cons e es ih => cases e <;> simp [called, ih]

/-- Every message that is called for waits for `lock_send` or has been taken. -/
theorem count_called (hrun : Network.run step initConn es = some s) (m : List UInt8) :
    (called es).count m = s.taken.count m + ∑ t, waiting m (s.call t) := by
  refine Network.run_history
    (R := fun s es => (called es).count m = s.taken.count m + ∑ t, waiting m (s.call t))
    ?_ ?_ (Network.meets_true _ es) hrun
  · intro s es e s' h _ hstep
    have hsum := Network.sum_update (fun _ => waiting m) s.call
    rw [called_append, List.count_append, h]
    obtain ⟨t, m', rfl, hc, rfl⟩ | ⟨t, m', rfl, -, hc, rfl⟩ |
      ⟨t, ret, c, c', out, rfl, hc, hsend, rfl⟩ | ⟨t, m', rfl, hc, rfl⟩ | ⟨ret, r, rfl, hr, rfl⟩ :=
      step_cases hstep
    · have hw := hsum t (some ⟨m', .lock⟩)
      rw [hc, waiting_none, waiting_lock] at hw
      simp only [called, List.count_singleton, beq_iff_eq]
      omega
    · have hw := hsum t (some ⟨m', .size 0⟩)
      rw [hc, waiting_lock, waiting_of_ne m (c := ⟨m', .size 0⟩) (by simp)] at hw
      simp only [called, List.count_append, List.count_singleton, List.count_nil, beq_iff_eq]
      omega
    · have hw := hsum t (some c')
      obtain ⟨hstage, hstage'⟩ := Call.send_stage hsend
      rw [hc, waiting_of_ne m hstage, waiting_of_ne m hstage'] at hw
      simp only [called, List.count_nil]
      omega
    · have hw := hsum t none
      rw [hc, waiting_none, waiting_of_ne m (c := ⟨m', .unlock⟩) (by simp)] at hw
      simp only [called, List.count_nil]
      omega
    · simp [called]
  · simp [called, initConn, waiting]

/-- A run without new calls takes at most as many steps as there is work left. -/
theorem length_le_work {s' : Conn Thread} (h : Inv s) (hes : ∀ e ∈ es, isCall e = false)
    (hrun : Network.run step s es = some s') : es.length ≤ s.work := by
  induction es generalizing s with
  | nil => exact Nat.zero_le _
  | cons e es ih =>
    obtain ⟨s₁, hstep, hrun'⟩ := Network.run_cons_eq_some.mp hrun
    have he := hes e List.mem_cons_self
    have hok : sizeOk e = true := by
      cases e with
      | call t m => cases he
      | _ => rfl
    have hlt := work_step h he hstep
    have hle := ih (inv_step h hok hstep) (fun e' he' => hes e' (List.mem_cons_of_mem e he')) hrun'
    simp only [List.length_cons]
    omega

/-- Framing round trip: for messages of one byte to `INT_MAX` bytes, sent by any interleaving of
threads, and whatever `send` and `recv` transfer at a time. The stream is always a part of the
frames of the messages in the order of `lock_send`, all of them when nobody holds it, and what the
receiver has delivered is a part of these messages. As long as a call has not returned or a byte has
not been received some step is possible, and without new calls there are only finitely many; and
then the receiver has delivered the messages, each of them once. -/
theorem framing_round_trip (hrun : Network.run step initConn es = some s)
    (hsize : ∀ e ∈ es, sizeOk e = true) :
    s.stream <+: sizeHeader.frames s.taken ∧
      (s.lockSend = none → s.stream = sizeHeader.frames s.taken) ∧
      s.server.delivered <+: s.taken ∧
      (¬ s.Done → ∃ e, isCall e = false ∧ (step s e).isSome) ∧
      (∀ es' s', (∀ e ∈ es', isCall e = false) → Network.run step s es' = some s' →
        es'.length ≤ s.work) ∧
      (s.Done → s.stream = sizeHeader.frames s.taken ∧ s.server.delivered = s.taken ∧
        s.taken.Perm (called es)) := by
  have hok : Network.Meets step (fun _ e => sizeOk e = true) initConn es :=
    Network.meets_of_forall hsize _
  have h : Inv s := Network.run_invariant (fun s e s' h hok hstep => inv_step h hok hstep) inv_init
    hok hrun
  have hdelivered := Framing.Header.delivered_of_isPrefix h.valid (h.isPrefix s.pos)
  rw [← h.server] at hdelivered
  have hwhole : s.lockSend = none → s.stream = sizeHeader.frames s.taken := by
    intro hl
    have hrest : s.rest = [] := by simp [Conn.rest, hl]
    rw [← h.frames, hrest, List.append_nil]
  refine ⟨⟨s.rest, h.frames⟩, hwhole, hdelivered, h.moves, ?_, ?_⟩
  · intro es' s' hes' hrun'
    exact length_le_work h hes' hrun'
  · rintro ⟨hidle, hpos⟩
    have hfree : s.lockSend = none := by
      cases hl : s.lockSend with
      | none => rfl
      | some t =>
        obtain ⟨c, hc, -⟩ := (h.lock t).mp hl
        rw [hidle t] at hc
        cases hc
    have hframes := hwhole hfree
    refine ⟨hframes, ?_, ?_⟩
    · have hall := Framing.Header.feed_frames h.valid []
      rw [← hframes] at hall
      have hserver := h.server
      rw [hpos, List.take_length] at hserver
      rw [hserver]
      exact congrArg Framing.Reader.delivered hall
    · rw [List.perm_iff_count]
      intro m
      rw [count_called hrun m]
      simp [hidle, waiting]

end Run

/-- The thread `b` sends two bytes while `a` waits to send one, in chunks that do not match those of
the receiver. -/
def sendersRun (a b : Thread) : List (Event Thread) :=
  [.call a [7], .call b [1, 2], .lock b, .send b 3, .recv 2, .send b 5, .send b 1, .recv 6, .recv 1,
    .send b 1, .unlock b, .lock a, .send a 8, .recv 1, .send a 1, .unlock a, .recv 8, .recv 1]

theorem framing_round_trip_sendersRun :
    ∃ s, Network.run step initConn (sendersRun (0 : Fin 2) 1) = some s ∧ s.Done ∧
      s.stream = sizeHeader.frames [[1, 2], [7]] ∧ s.server.delivered = [[1, 2], [7]] := by
  have hrun : Network.run step initConn (sendersRun (0 : Fin 2) 1) = some _ := rfl
  obtain ⟨-, -, -, -, -, hall⟩ := framing_round_trip hrun (by decide)
  obtain ⟨hstream, hdelivered, -⟩ := hall ⟨by decide, rfl⟩
  exact ⟨_, hrun, ⟨by decide, rfl⟩, hstream, hdelivered⟩

end Connection
