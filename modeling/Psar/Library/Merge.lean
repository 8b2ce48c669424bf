import Mathlib

/-!
# Merging sorted lists

Any number of sorted lists is merged by taking the least of their first elements again and again.
-/

namespace Merge

variable {α : Type} [LinearOrder α]

/-- The list at `s` begins with `a`, and no other list begins with a smaller element. -/
structure Least (rest : List (List α)) (s : ℕ) (a : α) (l : List α) : Prop where
  get : rest[s]? = some (a :: l)
  le : ∀ (t : ℕ) (b : α) (m : List α), rest[t]? = some (b :: m) → a ≤ b

/-- `out` has been taken from the lists, of which `rest` is left. -/
structure Merged (out : List α) (rest : List (List α)) : Prop where
  sorted : out.Pairwise (· ≤ ·)
  le : ∀ a ∈ out, ∀ l ∈ rest, ∀ b ∈ l, a ≤ b
  rest : ∀ l ∈ rest, l.Pairwise (· ≤ ·)

/-- Nothing has been taken from sorted lists. -/
theorem Merged.start {rest : List (List α)} (h : ∀ l ∈ rest, l.Pairwise (· ≤ ·)) :
    Merged [] rest where
  sorted := List.Pairwise.nil
  le := by
    intro a ha
    cases ha
  rest := h

omit [LinearOrder α] in
/-- What is taken from a list is not left in it. -/
theorem perm_flatten_set {rest : List (List α)} {s : ℕ} {a : α} {l : List α}
    (h : rest[s]? = some (a :: l)) : (a :: (rest.set s l).flatten).Perm rest.flatten := by
  induction rest generalizing s with
  | nil => simp at h
  | cons m rest ih =>
    cases s with
    | zero =>
      rw [List.getElem?_cons_zero, Option.some_inj] at h
      rw [h, List.set_cons_zero, List.flatten_cons, List.flatten_cons, List.cons_append]
    | succ s =>
      rw [List.getElem?_cons_succ] at h
      rw [List.set_cons_succ, List.flatten_cons, List.flatten_cons]
      exact List.perm_middle.symm.trans ((ih h).append_left m)

/-- The first element of a sorted list that is least among the first elements is least of all. -/
theorem Least.le_mem {rest : List (List α)} {s : ℕ} {a : α} {l : List α} (h : Least rest s a l)
    (hrest : ∀ l ∈ rest, l.Pairwise (· ≤ ·)) : ∀ m ∈ rest, ∀ b ∈ m, a ≤ b := by
  intro m hm b hb
  obtain ⟨t, ht⟩ := List.mem_iff_getElem?.mp hm
  cases m with
  | nil => cases hb
  | cons c m =>
    have hac : a ≤ c := h.le t c m ht
    rcases List.mem_cons.mp hb with rfl | hb
    · exact hac
    · exact hac.trans ((List.pairwise_cons.mp (hrest _ hm)).1 b hb)

/-- Taking the least element keeps what has been taken in order. -/
theorem Merged.take {out : List α} {rest : List (List α)} {s : ℕ} {a : α} {l : List α}
    (h : Merged out rest) (hleast : Least rest s a l) : Merged (out ++ [a]) (rest.set s l) := by
  have hmem : a :: l ∈ rest := List.mem_of_getElem? hleast.get
  have hle := hleast.le_mem h.rest
  -- What is left was there before.
  have hsub : ∀ m ∈ rest.set s l, ∀ b ∈ m, ∃ m' ∈ rest, b ∈ m' := by
    intro m hm b hb
    rcases List.mem_or_eq_of_mem_set hm with hm | rfl
    · exact ⟨m, hm, hb⟩
    · exact ⟨a :: m, hmem, List.mem_cons_of_mem a hb⟩
  constructor
  · rw [List.pairwise_append]
    refine ⟨h.sorted, List.pairwise_singleton _ _, ?_⟩
    intro b hb c hc
    rw [List.mem_singleton.mp hc]
    exact h.le b hb _ hmem a List.mem_cons_self
  · intro b hb m hm c hc
    obtain ⟨m', hm', hc'⟩ := hsub m hm c hc
    rcases List.mem_append.mp hb with hb | hb
    · exact h.le b hb m' hm' c hc'
    · rw [List.mem_singleton.mp hb]
      exact hle m' hm' c hc'
  · intro m hm
    rcases List.mem_or_eq_of_mem_set hm with hm | rfl
    · exact h.rest m hm
    · exact (List.pairwise_cons.mp (h.rest _ hmem)).2

end Merge
