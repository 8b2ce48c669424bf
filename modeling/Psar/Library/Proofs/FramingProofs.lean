import Psar.Library.Framing

/-!
# Proofs: reading length-prefixed frames

Chunks do not matter, a reader delivers the messages of the frames it reads, and what it has
delivered after a part of the frames is a part of the messages.
-/

namespace Framing

variable {β : Type} {H : Header β} {r : Reader β}

@[simp] theorem Header.frames_nil : H.frames [] = [] := rfl

theorem Header.frames_cons (m : List β) (ms : List (List β)) :
    H.frames (m :: ms) = H.frame m ++ H.frames ms := by
  simp [Header.frames]

theorem Header.frames_append (ms ms' : List (List β)) :
    H.frames (ms ++ ms') = H.frames ms ++ H.frames ms' := by
  simp [Header.frames]

/-! ## Chunks -/

/-- A chunk that does not fill the part is kept. -/
theorem Header.feed_lt {bs : List β} (h : r.data.length + bs.length < H.wanted r) :
    bs.foldl H.feed r = { r with data := r.data ++ bs } := by
  induction bs generalizing r with
  | nil => simp
  | cons b bs ih =>
    have hstep : H.feed r b = { r with data := r.data ++ [b] } := by
      unfold Header.feed Header.next
      apply if_pos
      show (r.data ++ [b]).length < H.wanted r
      simp only [List.length_append, List.length_cons, List.length_nil] at h ⊢
      omega
    rw [List.foldl_cons, hstep, ih]
    · simp
    · show (r.data ++ [b]).length + bs.length < H.wanted r
      simp only [List.length_append, List.length_cons, List.length_nil] at h ⊢
      omega

/-- A chunk that stays within the part is read as a whole. -/
theorem Header.feed_chunk {bs : List β} (hbs : bs ≠ [])
    (h : r.data.length + bs.length ≤ H.wanted r) :
    bs.foldl H.feed r = H.next { r with data := r.data ++ bs } := by
  -- all bytes but the last one leave the reader in the same part
  obtain ⟨cs, b, rfl⟩ := (List.eq_nil_or_concat' bs).resolve_left hbs
  have hcs : cs.foldl H.feed r = { r with data := r.data ++ cs } := by
    apply Header.feed_lt
    simp only [List.length_append, List.length_cons, List.length_nil] at h
    omega
  rw [List.foldl_append, hcs]
  simp [Header.feed]

/-- The state of the reader once the part is full. -/
theorem Header.next_of_full (h : H.wanted r ≤ r.data.length) :
    H.next r = match r.part with
      | .header => ⟨.body (H.decode r.data), [], r.delivered⟩
      | .body _ => ⟨.header, [], r.delivered ++ [r.data]⟩ :=
  if_neg (Nat.not_lt.mpr h)

/-! ## Frames -/

/-- The reader decodes the length of the body. -/
theorem Header.feed_encode {m : List β} (hm : H.Valid m) (dl : List (List β)) :
    (H.encode m.length).foldl H.feed ⟨.header, [], dl⟩ = ⟨.body m.length, [], dl⟩ := by
  have hlen := H.length_encode m.length
  have hpos := H.width_pos
  have hne : H.encode m.length ≠ [] := by
    rw [← List.length_pos_iff, hlen]
    exact hpos
  rw [Header.feed_chunk hne, Header.next_of_full]
  · simp [H.decode_encode _ hm.2]
  · simp [Header.wanted, hlen]
  · simp [Header.wanted, hlen]

theorem Header.feed_frame {m : List β} (hm : H.Valid m) (dl : List (List β)) :
    (H.frame m).foldl H.feed ⟨.header, [], dl⟩ = ⟨.header, [], dl ++ [m]⟩ := by
  have hne : m ≠ [] := List.length_pos_iff.mp hm.1
  rw [Header.frame, List.foldl_append, Header.feed_encode hm, Header.feed_chunk hne,
    Header.next_of_full]
  · simp
  · simp [Header.wanted]
  · simp [Header.wanted]

/-- A reader of frames delivers their messages. -/
theorem Header.feed_frames {ms : List (List β)} (hms : ∀ m ∈ ms, H.Valid m) (dl : List (List β)) :
    (H.frames ms).foldl H.feed ⟨.header, [], dl⟩ = ⟨.header, [], dl ++ ms⟩ := by
  induction ms generalizing dl with
  | nil => simp
  | cons m ms ih =>
    rw [Header.frames_cons, List.foldl_append, Header.feed_frame (hms m List.mem_cons_self),
      ih fun m' hm' => hms m' (List.mem_cons_of_mem m hm')]
    simp

/-! ## Parts of frames -/

theorem Header.delivered_next : r.delivered <+: (H.next r).delivered := by
  unfold Header.next
  split
  · exact List.prefix_rfl
  · split
    · exact List.prefix_rfl
    · exact List.prefix_append _ _

/-- What has been delivered stays delivered. -/
theorem Header.delivered_foldl (bs : List β) : r.delivered <+: (bs.foldl H.feed r).delivered := by
  induction bs generalizing r with
  | nil => exact List.prefix_rfl
  | cons b bs ih =>
    have hstep : r.delivered <+: (H.feed r b).delivered :=
      Header.delivered_next (r := { r with data := r.data ++ [b] })
    exact hstep.trans ih

/-- A part of the frames delivers a part of the messages. -/
theorem Header.delivered_of_isPrefix {ms : List (List β)} (hms : ∀ m ∈ ms, H.Valid m) {bs : List β}
    (h : bs <+: H.frames ms) : (bs.foldl H.feed Reader.start).delivered <+: ms := by
  obtain ⟨cs, hcs⟩ := h
  have hall := Header.feed_frames hms []
  rw [← hcs, List.foldl_append] at hall
  have hle := Header.delivered_foldl (H := H) (r := bs.foldl H.feed Reader.start) cs
  rw [show (List.foldl H.feed Reader.start bs) = List.foldl H.feed ⟨.header, [], []⟩ bs from rfl,
    hall] at hle
  simpa [Reader.start] using hle

/-- A part of two lists ends inside the first one, or it is the first one and a part of the
second. -/
theorem isPrefix_append_cases {p a b : List β} (h : p <+: a ++ b) :
    (p <+: a ∧ p.length < a.length) ∨ ∃ q, p = a ++ q ∧ q <+: b := by
  by_cases hlen : p.length < a.length
  · exact Or.inl ⟨List.prefix_of_prefix_length_le h (List.prefix_append a b) (Nat.le_of_lt hlen),
      hlen⟩
  · right
    obtain ⟨q, rfl⟩ := List.prefix_of_prefix_length_le (List.prefix_append a b) h
      (Nat.not_lt.mp hlen)
    exact ⟨q, rfl, (List.prefix_append_right_inj a).mp h⟩

/-- After a part of the frames the reader has room, and a body that it fills is one of the
messages. -/
theorem Header.open_of_isPrefix {ms : List (List β)} (hms : ∀ m ∈ ms, H.Valid m) {bs : List β}
    (h : bs <+: H.frames ms) (dl : List (List β)) :
    H.Open (bs.foldl H.feed ⟨.header, [], dl⟩) ∧
      ∀ n, (bs.foldl H.feed ⟨.header, [], dl⟩).part = .body n → ∃ m ∈ ms, m.length = n := by
  induction ms generalizing bs dl with
  | nil =>
    obtain rfl := List.prefix_nil.mp h
    exact ⟨H.width_pos, fun n hn => by cases hn⟩
  | cons m ms ih =>
    have hm := hms m List.mem_cons_self
    rw [Header.frames_cons, Header.frame, List.append_assoc] at h
    rcases isPrefix_append_cases h with ⟨-, hlt⟩ | ⟨cs, rfl, hcs⟩
    · -- inside the header
      rw [H.length_encode] at hlt
      rw [Header.feed_lt (by simpa [Header.wanted] using hlt)]
      refine ⟨?_, fun n hn => by cases hn⟩
      simpa [Header.Open, Header.wanted] using hlt
    · rw [List.foldl_append, Header.feed_encode hm]
      rcases isPrefix_append_cases hcs with ⟨-, hlt⟩ | ⟨ds, rfl, hds⟩
      · -- inside the body
        rw [Header.feed_lt (by simpa [Header.wanted] using hlt)]
        refine ⟨by simpa [Header.Open, Header.wanted] using hlt, ?_⟩
        intro n hn
        cases hn
        exact ⟨m, List.mem_cons_self, rfl⟩
      · -- the frame has been read
        have hframe := Header.feed_frame hm dl
        rw [Header.frame, List.foldl_append, Header.feed_encode hm] at hframe
        rw [List.foldl_append, hframe]
        obtain ⟨hopen, hbody⟩ := ih (fun m' hm' => hms m' (List.mem_cons_of_mem m hm')) hds _
        refine ⟨hopen, ?_⟩
        intro n hn
        obtain ⟨m', hm', hlen⟩ := hbody n hn
        exact ⟨m', List.mem_cons_of_mem m hm', hlen⟩

end Framing
