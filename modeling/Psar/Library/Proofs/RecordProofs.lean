import Psar.Library.Record
import Psar.Library.Proofs.BufferProofs

/-!
# Proofs: records with padding

Programs that write or read records one after the other write or read the concatenation. A record
that has been written is in the buffer, whatever was there before.
-/

namespace Record

open Buffer (Access At Cursor overwrite)

variable {β α γ σ : Type}

/-! ## Records -/

@[simp] theorem size_nil : size ([] : List (Piece β)) = 0 := rfl

@[simp] theorem size_cons (p : Piece β) (ps : List (Piece β)) :
    size (p :: ps) = p.size + size ps := by
  simp [size]

@[simp] theorem size_append (ps qs : List (Piece β)) : size (ps ++ qs) = size ps + size qs := by
  simp [size]

theorem size_flatMap {f : γ → List (Piece β)} {n : ℕ} {xs : List γ} (h : ∀ x ∈ xs, size (f x) = n) :
    size (xs.flatMap f) = xs.length * n := by
  induction xs with
  | nil => simp
  | cons x xs ih =>
    obtain ⟨hx, hxs⟩ := List.forall_mem_cons.mp h
    rw [List.flatMap_cons, size_append, hx, ih hxs, List.length_cons, Nat.succ_mul, Nat.add_comm]

theorem accesses_append (off : ℕ) (ps qs : List (Piece β)) :
    accesses off (ps ++ qs) = accesses off ps ++ accesses (off + size ps) qs := by
  induction ps generalizing off with
  | nil => rfl
  | cons p ps ih =>
    cases p with
    | field bs => simp only [List.cons_append, accesses, ih, size_cons, Piece.size, Nat.add_assoc]
    | padding n => simp only [List.cons_append, accesses, ih, size_cons, Piece.size, Nat.add_assoc]

/-- A field is inside its record. -/
theorem le_of_mem_accesses {off : ℕ} {ps : List (Piece β)} {a : Access β}
    (h : a ∈ accesses off ps) : off ≤ a.offset ∧ a.offset + a.bytes.length ≤ off + size ps := by
  induction ps generalizing off with
  | nil => cases h
  | cons p ps ih =>
    rw [size_cons]
    cases p with
    | field bs =>
      rcases List.mem_cons.mp h with rfl | h
      · exact ⟨le_rfl, by simp [Piece.size]⟩
      · have := ih h
        simp only [Piece.size]
        omega
    | padding n =>
      have := ih h
      simp only [Piece.size]
      omega

theorem holds_append {mem : List β} {off : ℕ} {ps qs : List (Piece β)} :
    Holds mem off (ps ++ qs) ↔ Holds mem off ps ∧ Holds mem (off + size ps) qs := by
  unfold Holds
  rw [accesses_append]
  exact List.forall_mem_append

theorem holds_field {mem : List β} {off : ℕ} {bs : List β} :
    Holds mem off [.field bs] ↔ At mem off bs :=
  List.forall_mem_singleton

theorem holds_padding (mem : List β) (off n : ℕ) : Holds mem off [.padding n] :=
  List.forall_mem_nil _

/-- Records of the same size in the place of others. -/
theorem Holds.flatMap {mem : List β} {f g : γ → List (Piece β)}
    (h : ∀ x off, Holds mem off (f x) → Holds mem off (g x)) (hsize : ∀ x, size (f x) = size (g x))
    {xs : List γ} {off : ℕ} (hxs : Holds mem off (xs.flatMap f)) :
    Holds mem off (xs.flatMap g) := by
  induction xs generalizing off with
  | nil => exact hxs
  | cons x xs ih =>
    rw [List.flatMap_cons] at hxs ⊢
    obtain ⟨hx, hxs⟩ := holds_append.mp hxs
    refine holds_append.mpr ⟨h x off hx, ?_⟩
    rw [← hsize]
    exact ih hxs

/-! ## Writing -/

theorem writeAll_append (mem : List β) (as bs : List (Access β)) :
    writeAll mem (as ++ bs) = writeAll (writeAll mem as) bs :=
  List.foldl_append

theorem length_overwrite_of_le {mem : List β} {off : ℕ} {bs : List β}
    (h : off + bs.length ≤ mem.length) : (overwrite mem off bs).length = mem.length :=
  Buffer.length_overwrite (h.trans (Nat.le_max_right _ _))

theorem length_writeAll {mem : List β} {as : List (Access β)}
    (h : ∀ a ∈ as, a.offset + a.bytes.length ≤ mem.length) :
    (writeAll mem as).length = mem.length := by
  induction as generalizing mem with
  | nil => rfl
  | cons a as ih =>
    obtain ⟨ha, has⟩ := List.forall_mem_cons.mp h
    have hlen := length_overwrite_of_le ha
    rw [← hlen] at has
    exact (ih has).trans hlen

theorem length_writeAll_accesses {mem : List β} {off : ℕ} {ps : List (Piece β)}
    (h : off + size ps ≤ mem.length) : (writeAll mem (accesses off ps)).length = mem.length :=
  length_writeAll fun _ ha => (le_of_mem_accesses ha).2.trans h

/-- Bytes in front of those that are overwritten stay. -/
theorem at_overwrite_behind {mem : List β} {off off' : ℕ} {as bs : List β} (h : At mem off bs)
    (hle : off + bs.length ≤ off') : At (overwrite mem off' as) off bs := by
  obtain ⟨before, after, rfl, rfl⟩ := h
  refine ⟨before, after.take (off' - (before.length + bs.length)) ++ as ++
    (before ++ bs ++ after).drop (off' + as.length), ?_, rfl⟩
  have hfront : (before ++ bs).length ≤ off' := by
    rw [List.length_append]
    exact hle
  unfold overwrite
  rw [List.take_append, List.take_of_length_le hfront, List.length_append]
  simp only [List.append_assoc]

/-- Bytes in front of a record stay when it is written. -/
theorem at_writeAll {mem : List β} {off : ℕ} {bs : List β} {as : List (Access β)}
    (h : At mem off bs) (has : ∀ a ∈ as, off + bs.length ≤ a.offset) :
    At (writeAll mem as) off bs := by
  induction as generalizing mem with
  | nil => exact h
  | cons a as ih =>
    obtain ⟨ha, has⟩ := List.forall_mem_cons.mp has
    exact ih (at_overwrite_behind h ha) has

/-- A record that has been written is in the buffer. -/
theorem holds_writeAll {mem : List β} {off : ℕ} {ps : List (Piece β)}
    (h : off + size ps ≤ mem.length) : Holds (writeAll mem (accesses off ps)) off ps := by
  induction ps generalizing mem off with
  | nil => exact List.forall_mem_nil _
  | cons p ps ih =>
    rw [size_cons] at h
    cases p with
    | field bs =>
      simp only [Piece.size] at h
      have hbs : off + bs.length ≤ mem.length := by omega
      refine List.forall_mem_cons.mpr ⟨?_, ?_⟩
      · show At (writeAll (overwrite mem off bs) (accesses (off + bs.length) ps)) off bs
        exact at_writeAll (Buffer.at_overwrite hbs) fun a ha => (le_of_mem_accesses ha).1
      · refine ih ?_
        rw [length_overwrite_of_le hbs]
        omega
    | padding n =>
      simp only [Piece.size] at h
      exact ih (by omega)

theorem written_append (c : Cursor β) (ps qs : List (Piece β)) :
    written c (ps ++ qs) = written (written c ps) qs := by
  simp only [written, accesses_append, writeAll_append, size_append, Nat.add_assoc,
    List.append_assoc]

theorem writes_put (bs : List β) : Writes (put bs) [.field bs] := by
  intro c hroom
  have hle : c.pos + bs.length ≤ c.mem.length := by simpa [Piece.size] using hroom
  unfold put Cursor.put Cursor.store
  rw [if_pos hle]
  simp [written, writeAll, accesses, Cursor.skip, Piece.size]

theorem writes_skip (n : ℕ) : Writes (skip n : Prog β Unit) [.padding n] := by
  intro c _
  simp [skip, written, writeAll, accesses, Cursor.skip, Piece.size]

theorem writes_nil : Writes (pure () : Prog β Unit) [] := by
  intro c _
  simp [written, writeAll, accesses]
  rfl

theorem Writes.bind {f g : Prog β Unit} {ps qs : List (Piece β)} (hf : Writes f ps)
    (hg : Writes g qs) : Writes (f >>= fun _ => g) (ps ++ qs) := by
  intro c hroom
  rw [size_append] at hroom
  have hfirst : f c = some ((), written c ps) := hf c (by omega)
  have hsecond : g (written c ps) = some ((), written (written c ps) qs) := by
    apply hg
    show c.pos + size ps + size qs ≤ (writeAll c.mem (accesses c.pos ps)).length
    rw [length_writeAll_accesses (by omega)]
    omega
  show (f c).bind _ = _
  rw [hfirst, written_append]
  exact hsecond

theorem writes_forM {f : γ → Prog β Unit} {pieces : γ → List (Piece β)} {xs : List γ}
    (hf : ∀ x ∈ xs, Writes (f x) (pieces x)) : Writes (xs.forM f) (xs.flatMap pieces) := by
  induction xs with
  | nil => exact writes_nil
  | cons x xs ih =>
    obtain ⟨hx, hxs⟩ := List.forall_mem_cons.mp hf
    rw [List.flatMap_cons]
    exact hx.bind (ih hxs)

theorem Writes.stride {f : Prog β Unit} {ps : List (Piece β)} (hf : Writes f ps) {n : ℕ}
    (hn : size ps = n) : Writes (stride n f) ps := by
  intro c hroom
  show (f c).map _ = _
  rw [hf c hroom, ← hn]
  rfl

/-! ## Reading -/

theorem passed_append (c : Cursor β) (ps qs : List (Piece β)) :
    passed c (ps ++ qs) = passed (passed c ps) qs := by
  simp only [passed, accesses_append, size_append, Nat.add_assoc, List.append_assoc]

theorem reads_get {bs : List β} {n : ℕ} (hn : bs.length = n) :
    Reads (get n) [.field bs] bs := by
  intro c hc
  have hat : At c.mem c.pos [bs].flatten := by simpa using holds_field.mp hc
  show c.get n = _
  rw [Cursor.get_eq hn hat]
  simp [Cursor.passed, passed, Buffer.layout, accesses, Piece.size]

theorem reads_skip (n : ℕ) : Reads (skip n : Prog β Unit) [.padding n] () := by
  intro c _
  simp [skip, passed, accesses, Cursor.skip, Piece.size]

theorem reads_pure (a : α) : Reads (pure a : Prog β α) [] a := by
  intro c _
  simp [passed, accesses]
  rfl

theorem Reads.bind {f : Prog β α} {g : α → Prog β γ} {ps qs : List (Piece β)} {a : α} {b : γ}
    (hf : Reads f ps a) (hg : Reads (g a) qs b) : Reads (f >>= g) (ps ++ qs) b := by
  intro c hc
  obtain ⟨hps, hqs⟩ := holds_append.mp hc
  show (f c).bind _ = _
  rw [hf c hps, passed_append]
  exact hg (passed c ps) hqs

theorem Reads.stride {f : Prog β α} {ps : List (Piece β)} {a : α} (hf : Reads f ps a) {n : ℕ}
    (hn : size ps = n) : Reads (stride n f) ps a := by
  intro c hc
  show (f c).map _ = _
  rw [hf c hc, ← hn]
  rfl

/-- A loop that reads one record of `xs` in every turn. -/
theorem reads_loop {body : σ → Prog β σ} {pieces : γ → List (Piece β)} {g : σ → γ → σ}
    {xs : List γ} (hbody : ∀ s, ∀ x ∈ xs, Reads (body s) (pieces x) (g s x)) (s : σ) :
    Reads (loop body xs.length s) (xs.flatMap pieces) (xs.foldl g s) := by
  induction xs generalizing s with
  | nil => exact reads_pure s
  | cons x xs ih =>
    rw [List.flatMap_cons]
    exact (hbody s x List.mem_cons_self).bind
      (ih (fun s y hy => hbody s y (List.mem_cons_of_mem _ hy)) (g s x))

end Record
