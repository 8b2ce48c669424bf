import Psar.Library.Buffer

/-!
# Proofs: buffers that are written and read field by field

What is written in several steps is one piece of the buffer. A reader finds the fields where they
are, as long as they are not overwritten.
-/

namespace Buffer

variable {β α γ : Type}

/-! ## Overwriting -/

theorem overwrite_nil (mem : List β) (off : ℕ) : overwrite mem off [] = mem := by
  simp [overwrite]

/-- The bytes that are overwritten, and those before and behind them. -/
theorem exists_split {mem : List β} {off n : ℕ} (h : off + n ≤ mem.length) :
    ∃ before mid after, mem = before ++ (mid ++ after) ∧ before.length = off ∧ mid.length = n := by
  refine ⟨mem.take off, (mem.drop off).take n, (mem.drop off).drop n, ?_, ?_, ?_⟩
  · rw [List.take_append_drop, List.take_append_drop]
  · rw [List.length_take]
    omega
  · rw [List.length_take, List.length_drop]
    omega

theorem overwrite_split {before mid after bs : List β} (h : mid.length = bs.length) :
    overwrite (before ++ (mid ++ after)) before.length bs = before ++ (bs ++ after) := by
  unfold overwrite
  rw [List.take_left, ← List.drop_drop, List.drop_left, ← h, List.drop_left, List.append_assoc]

theorem length_overwrite {mem : List β} {off : ℕ} {bs : List β} (h : Room mem off bs.length) :
    (overwrite mem off bs).length = mem.length := by
  unfold Room at h
  simp only [overwrite, List.length_append, List.length_take, List.length_drop]
  omega

theorem Room.overwrite {mem : List β} {off off' n : ℕ} {bs : List β} (h : Room mem off' n)
    (hroom : Room mem off bs.length) : Room (overwrite mem off bs) off' n := by
  unfold Room
  rw [length_overwrite hroom]
  exact h

/-- The bytes that two neighbouring fields overwrite. -/
theorem exists_split_two {mem : List β} {off m n : ℕ} (h : off + m + n ≤ mem.length) :
    ∃ before mid mid' after, mem = before ++ (mid ++ (mid' ++ after)) ∧ before.length = off ∧
      mid.length = m ∧ mid'.length = n := by
  obtain ⟨before, mid, rest, rfl, rfl, rfl⟩ := exists_split (Nat.le_of_add_right_le h)
  obtain ⟨nothing, mid', after, rfl, hnothing, hmid'⟩ : ∃ nothing mid' after,
      rest = nothing ++ (mid' ++ after) ∧ nothing.length = 0 ∧ mid'.length = n := by
    apply exists_split
    simp only [List.length_append] at h
    omega
  rw [List.length_eq_zero_iff.mp hnothing]
  exact ⟨before, mid, mid', after, rfl, rfl, rfl, hmid'⟩

theorem overwrite_split_two {before mid mid' after as bs : List β} (h : mid.length = as.length)
    (h' : mid'.length = bs.length) :
    overwrite (before ++ (mid ++ (mid' ++ after))) before.length (as ++ bs) =
      before ++ (as ++ (bs ++ after)) := by
  have hlen : (mid ++ mid').length = (as ++ bs).length := by
    rw [List.length_append, List.length_append, h, h']
  rw [← List.append_assoc mid, overwrite_split hlen, List.append_assoc as]

/-- Writing `bs` behind `as` is writing both. -/
theorem overwrite_append {mem : List β} {off : ℕ} {as bs : List β} (h : Room mem off as.length)
    (h' : Room mem (off + as.length) bs.length) :
    overwrite (overwrite mem off as) (off + as.length) bs = overwrite mem off (as ++ bs) := by
  rcases Nat.eq_zero_or_pos bs.length with hb | hb
  · rw [List.length_eq_zero_iff.mp hb, overwrite_nil, List.append_nil]
  · obtain ⟨before, mid, mid', after, rfl, rfl, hmid, hmid'⟩ :
        ∃ before mid mid' after, mem = before ++ (mid ++ (mid' ++ after)) ∧ before.length = off ∧
          mid.length = as.length ∧ mid'.length = bs.length := by
      apply exists_split_two
      unfold Room at h h'
      omega
    rw [overwrite_split_two hmid hmid', overwrite_split hmid, ← List.append_assoc before,
      ← List.length_append, overwrite_split hmid', List.append_assoc]

/-- Writing `as` in front of `bs` is writing both. -/
theorem overwrite_prepend {mem : List β} {off : ℕ} {as bs : List β}
    (h : off + as.length ≤ mem.length) (h' : Room mem (off + as.length) bs.length) :
    overwrite (overwrite mem (off + as.length) bs) off as = overwrite mem off (as ++ bs) := by
  obtain ⟨before, mid, mid', after, rfl, rfl, hmid, hmid'⟩ :
      ∃ before mid mid' after, mem = before ++ (mid ++ (mid' ++ after)) ∧ before.length = off ∧
        mid.length = as.length ∧ mid'.length = bs.length := by
    apply exists_split_two
    unfold Room at h'
    omega
  rw [overwrite_split_two hmid hmid', ← hmid, ← List.append_assoc before, ← List.length_append,
    overwrite_split hmid', List.append_assoc, overwrite_split hmid]

/-! ## Bytes in a buffer -/

theorem at_append {mem : List β} {off : ℕ} {as bs : List β} :
    At mem off (as ++ bs) ↔ At mem off as ∧ At mem (off + as.length) bs := by
  constructor
  · rintro ⟨before, after, rfl, rfl⟩
    exact ⟨⟨before, bs ++ after, by simp, rfl⟩, before ++ as, after, by simp, by simp⟩
  · rintro ⟨⟨before, rest, rfl, rfl⟩, front, after, heq, hlen⟩
    rw [List.append_assoc front] at heq
    obtain ⟨-, rfl⟩ := List.append_inj heq (by rw [hlen, List.length_append])
    exact ⟨before, after, by simp, rfl⟩

theorem at_overwrite {mem : List β} {off : ℕ} {bs : List β} (h : off + bs.length ≤ mem.length) :
    At (overwrite mem off bs) off bs := by
  obtain ⟨before, mid, after, rfl, rfl, hmid⟩ := exists_split h
  rw [overwrite_split hmid]
  exact ⟨before, after, by simp, rfl⟩

/-- Bytes behind those that are overwritten stay. -/
theorem At.overwrite_before {mem : List β} {off off' : ℕ} {as bs : List β} (h : At mem off' bs)
    (hle : off + as.length ≤ off') : At (overwrite mem off as) off' bs := by
  obtain ⟨front, after, rfl, rfl⟩ := h
  obtain ⟨before, mid, rest, rfl, rfl, hmid⟩ := exists_split hle
  refine ⟨before ++ (as ++ rest), after, ?_, ?_⟩
  · have hsplit : overwrite (before ++ (mid ++ (rest ++ (bs ++ after)))) before.length as =
        before ++ (as ++ (rest ++ (bs ++ after))) := overwrite_split hmid
    simpa using hsplit
  · simp [hmid]

/-- Elements that are not overwritten stay. -/
theorem overwrite_getElem? {mem bs : List β} {off i : ℕ} (h : off + bs.length ≤ mem.length)
    (hi : i < off ∨ off + bs.length ≤ i) : (overwrite mem off bs)[i]? = mem[i]? := by
  obtain ⟨before, mid, after, rfl, rfl, hmid⟩ := exists_split h
  rw [overwrite_split hmid]
  rcases hi with hi | hi
  · rw [List.getElem?_append_left hi, List.getElem?_append_left hi]
  · rw [List.getElem?_append_right (by omega), List.getElem?_append_right (by omega),
      List.getElem?_append_right (by omega), List.getElem?_append_right (by omega), hmid]

/-! ## Layouts -/

theorem layout_append (off : ℕ) (fs gs : List (List β)) :
    layout off (fs ++ gs) = layout off fs ++ layout (off + fs.flatten.length) gs := by
  induction fs generalizing off with
  | nil => rfl
  | cons f fs ih =>
    simp only [List.cons_append, layout, ih, List.flatten_cons, List.length_append, Nat.add_assoc]

/-- The accesses of a layout have as many bytes as the fields. -/
theorem sum_layout (off : ℕ) (fs : List (List β)) :
    ((layout off fs).map fun a => a.bytes.length).sum = fs.flatten.length := by
  induction fs generalizing off with
  | nil => rfl
  | cons f fs ih =>
    simp only [layout, List.map_cons, List.sum_cons, ih, List.flatten_cons, List.length_append]

/-! ## Writing -/

theorem Cursor.exists_store {c : Cursor β} {off : ℕ} {bs : List β}
    (h : off + bs.length ≤ c.mem.length) : ∃ c', c.store off bs = some c' :=
  ⟨_, if_pos h⟩

theorem Wrote.trans {c c' c'' : Cursor β} {fs gs : List (List β)} (h : Wrote c c' fs)
    (h' : Wrote c' c'' gs) : Wrote c c'' (fs ++ gs) := by
  have hroom := h.room
  have hroom' := h'.room
  rw [h.mem, h.pos] at hroom'
  unfold Room at hroom'
  rw [length_overwrite hroom] at hroom'
  constructor
  · rw [List.flatten_append, List.length_append]
    unfold Room at hroom ⊢
    omega
  · rw [h'.mem, h.mem, h.pos, overwrite_append hroom hroom', List.flatten_append]
  · rw [h'.pos, h.pos, List.flatten_append, List.length_append, Nat.add_assoc]
  · rw [layout_append, ← List.append_assoc, ← h.pos]
    exact h'.log.trans (h.log.append_right _)

/-- A field that is written last in front of the others. -/
theorem Wrote.reserve {c c' c'' : Cursor β} {fs : List (List β)} {bs : List β}
    (h : Wrote (c.skip bs.length) c' fs) (hc'' : c'.store c.pos bs = some c'') :
    Wrote c c'' (bs :: fs) := by
  have hroom : Room c.mem (c.pos + bs.length) fs.flatten.length := h.room
  have hmem : c'.mem = overwrite c.mem (c.pos + bs.length) fs.flatten := h.mem
  have hpos : c'.pos = c.pos + bs.length + fs.flatten.length := h.pos
  unfold Cursor.store at hc''
  split_ifs at hc'' with hle
  rw [hmem, length_overwrite hroom] at hle
  cases hc''
  constructor
  · rw [List.flatten_cons, List.length_append]
    unfold Room at hroom ⊢
    omega
  · show overwrite c'.mem c.pos bs = _
    rw [hmem, overwrite_prepend hle hroom, List.flatten_cons]
  · show c'.pos = _
    rw [hpos, List.flatten_cons, List.length_append, Nat.add_assoc]
  · have hlog : c'.log.Perm (c.log ++ layout (c.pos + bs.length) fs) := h.log
    show (c'.log ++ [(⟨c.pos, bs⟩ : Access β)]).Perm
      (c.log ++ ([(⟨c.pos, bs⟩ : Access β)] ++ layout (c.pos + bs.length) fs))
    refine (hlog.append_right _).trans ?_
    rw [List.append_assoc]
    exact List.Perm.append_left _ List.perm_append_comm

/-- A field that is not empty. -/
theorem writes_put {bs : List β} (h : bs ≠ []) : Writes (fun c => c.put bs) [bs] := by
  have hflat : [bs].flatten = bs := by simp
  have hpos := List.length_pos_of_ne_nil h
  constructor
  · intro c hroom
    rw [hflat] at hroom
    have hle : c.pos + bs.length ≤ c.mem.length := by
      unfold Room at hroom
      omega
    obtain ⟨c', hc'⟩ := Cursor.exists_store hle
    refine ⟨c'.skip bs.length, ?_⟩
    · show (c.store c.pos bs).map _ = _
      rw [hc']
      rfl
  · intro c c' hput
    change (c.store c.pos bs).map _ = _ at hput
    unfold Cursor.store at hput
    split_ifs at hput with hle
    · cases hput
      refine ⟨?_, ?_, ?_, List.Perm.refl _⟩
      · rw [hflat]
        unfold Room
        omega
      · rw [hflat]
        rfl
      · rw [hflat]
        rfl
    · cases hput

theorem Writes.bind {f g : Cursor β → Option (Cursor β)} {fs gs : List (List β)}
    (hf : Writes f fs) (hg : Writes g gs) : Writes (fun c => (f c).bind g) (fs ++ gs) := by
  constructor
  · intro c hroom
    rw [List.flatten_append, List.length_append] at hroom
    unfold Room at hroom
    obtain ⟨c', hc'⟩ := hf.defined c (by unfold Room; omega)
    have hw := hf.wrote c c' hc'
    obtain ⟨c'', hc''⟩ := hg.defined c' (by
      rw [hw.mem, hw.pos]
      refine Room.overwrite ?_ hw.room
      unfold Room
      omega)
    refine ⟨c'', ?_⟩
    · show (f c).bind g = some c''
      rw [hc']
      exact hc''
  · intro c c'' hc''
    obtain ⟨c', hc', hc''⟩ := Option.bind_eq_some_iff.mp hc''
    exact (hf.wrote c c' hc').trans (hg.wrote c' c'' hc'')

/-- A loop writes the fields of its turns. -/
theorem writes_foldlM {f : Cursor β → γ → Option (Cursor β)} {fields : γ → List (List β)}
    (hf : ∀ x, Writes (fun c => f c x) (fields x)) (xs : List γ) :
    Writes (fun c => xs.foldlM f c) (xs.flatMap fields) := by
  induction xs with
  | nil =>
    constructor
    · intro c _
      exact ⟨c, rfl⟩
    · rintro c _ ⟨⟩
      exact ⟨Nat.le_max_left _ _, (overwrite_nil _ _).symm, rfl, by simp [layout]⟩
  | cons x xs ih =>
    rw [List.flatMap_cons]
    simp only [List.foldlM_cons]
    exact (hf x).bind ih

/-- The first field is written after the others. -/
theorem Writes.reserve {f : Cursor β → Option (Cursor β)} {fs : List (List β)} {bs : List β}
    (hf : Writes f fs) (hbs : bs ≠ []) {n : ℕ} (hn : bs.length = n) :
    Writes (fun c => (f (c.skip n)).bind fun c' => c'.store c.pos bs) (bs :: fs) := by
  subst hn
  constructor
  · intro c hroom
    rw [List.flatten_cons, List.length_append] at hroom
    unfold Room at hroom
    obtain ⟨c', hc'⟩ := hf.defined (c.skip bs.length) (by
      show c.pos + bs.length + fs.flatten.length ≤ max (c.pos + bs.length) c.mem.length
      omega)
    have hw := hf.wrote _ c' hc'
    have hlen : c'.mem.length = c.mem.length := by
      rw [hw.mem, length_overwrite hw.room]
      rfl
    have hle : c.pos + bs.length ≤ c'.mem.length := by
      have := List.length_pos_of_ne_nil hbs
      omega
    obtain ⟨c'', hc''⟩ := Cursor.exists_store hle
    refine ⟨c'', ?_⟩
    · show (f (c.skip bs.length)).bind _ = _
      rw [hc']
      exact hc''
  · intro c c'' hc''
    obtain ⟨c', hc', hc''⟩ := Option.bind_eq_some_iff.mp hc''
    exact (hf.wrote _ c' hc').reserve hc''

/-! ## Reading -/

theorem Cursor.passed_nil (c : Cursor β) : c.passed [] = c := by
  simp [Cursor.passed, layout]

theorem Cursor.passed_append (c : Cursor β) (fs gs : List (List β)) :
    c.passed (fs ++ gs) = (c.passed fs).passed gs := by
  unfold Cursor.passed
  rw [layout_append, List.flatten_append, List.length_append, Nat.add_assoc, List.append_assoc]

/-- Behind the first fields are the others. -/
theorem At.passed {c : Cursor β} {fs gs : List (List β)}
    (h : At c.mem c.pos (fs ++ gs).flatten) :
    At c.mem c.pos fs.flatten ∧ At (c.passed fs).mem (c.passed fs).pos gs.flatten := by
  rw [List.flatten_append] at h
  exact at_append.mp h

/-- Reading a field that is at the position. -/
theorem Cursor.get_eq {c : Cursor β} {bs : List β} {n : ℕ} (hn : bs.length = n)
    (h : At c.mem c.pos [bs].flatten) : c.get n = some (bs, c.passed [bs]) := by
  subst hn
  have hflat : [bs].flatten = bs := by simp
  rw [hflat] at h
  obtain ⟨before, after, hmem, hpos⟩ := h
  have hle : c.pos + bs.length ≤ c.mem.length := by
    rw [hmem, ← hpos]
    simp only [List.length_append]
    omega
  have hread : (c.mem.drop c.pos).take bs.length = bs := by
    rw [hmem, ← hpos, List.append_assoc, List.drop_left, List.take_left]
  unfold Cursor.get Cursor.passed
  rw [if_pos hle]
  simp only [hread, hflat, layout]

end Buffer
