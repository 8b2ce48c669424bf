import Psar.Sorting.QuickSort

/-!
# Proofs: `sort`

The array is written as the part in front of a range, the range, and the part behind it; what a
function does to a range, it does for all parts around it.
-/

namespace Sorting

open Cells (read write read_middle write_middle)

variable {α : Type}

/-! ## Indices and swaps -/

theorem int_eq {z : ℤ} (h : -2 ^ 31 ≤ z) (h' : z < 2 ^ 31) : int z = some z := if_pos ⟨h, h'⟩

theorem swap_self (x : List α) (a : α) (y : List α) :
    swap (x ++ a :: y) x.length x.length = some (x ++ a :: y) := by
  simp only [swap, read_middle, write_middle, bind, Option.bind]

theorem swap_middle (x : List α) (a : α) (y : List α) (b : α) (z : List α) {j : ℤ}
    (hj : j = x.length + 1 + y.length) :
    swap (x ++ a :: (y ++ b :: z)) x.length j = some (x ++ b :: (y ++ a :: z)) := by
  have hat : ∀ c, x ++ c :: (y ++ b :: z) = (x ++ c :: y) ++ b :: z := by simp
  have hlen : ∀ c, j = (x ++ c :: y).length := by
    intro c
    rw [hj, List.length_append, List.length_cons]
    push_cast
    omega
  have hread : read (x ++ a :: (y ++ b :: z)) j = some b := by
    rw [hat, hlen a, read_middle]
  have hwrite : write (x ++ b :: (y ++ b :: z)) j a = some (x ++ b :: (y ++ a :: z)) := by
    rw [hat, hlen b, write_middle, List.append_assoc, List.cons_append]
  unfold swap
  rw [read_middle]
  show (read (x ++ a :: (y ++ b :: z)) j).bind _ = _
  rw [hread]
  show (write _ x.length b).bind _ = _
  rw [write_middle]
  exact hwrite

/-! ## `partition` -/

/-- The next element is not above the pivot: it changes places with the first one that is. -/
theorem swap_next (x small large : List α) (a : α) (y : List α) :
    ∃ large', large'.Perm large ∧
      swap (x ++ (small ++ (large ++ a :: y))) (x.length + small.length)
        (x.length + small.length + large.length) =
      some (x ++ ((small ++ [a]) ++ (large' ++ y))) := by
  have hlen : ((x ++ small).length : ℤ) = x.length + small.length := by
    rw [List.length_append]
    push_cast
    rfl
  cases large with
  | nil =>
    refine ⟨[], List.Perm.refl _, ?_⟩
    have hswap := swap_self (x ++ small) a y
    rw [hlen] at hswap
    simpa using hswap
  | cons b large =>
    refine ⟨large ++ [b], List.perm_append_singleton b large, ?_⟩
    have hswap := swap_middle (x ++ small) b large a y
      (j := x.length + small.length + (b :: large).length) (by
        rw [hlen, List.length_cons]
        push_cast
        omega)
    rw [hlen] at hswap
    simpa using hswap

variable [LinearOrder α]

/-- The parts of the range that the loop has gone through: those up to the pivot, those above it. -/
structure Split (p : α) (small large : List α) : Prop where
  small : ∀ a ∈ small, a ≤ p
  large : ∀ a ∈ large, p < a

theorem partitionLoop_eq {p : α} (x : List α) {small large : List α} (rest y : List α)
    (h : Split p small large)
    (hlen : x.length + small.length + large.length + rest.length < 2 ^ 31) :
    ∃ small' large', Split p small' large' ∧
      (small' ++ large').Perm (small ++ large ++ rest) ∧
      partitionLoop p rest.length (x.length + small.length + large.length)
        (x.length + small.length - 1) (x ++ (small ++ (large ++ (rest ++ y)))) =
      some ((x.length + small'.length - 1 : ℤ), x ++ (small' ++ (large' ++ y))) := by
  induction rest generalizing small large with
  | nil => exact ⟨small, large, h, by simp, rfl⟩
  | cons a rest ih =>
    rw [List.length_cons] at hlen
    have hread : read (x ++ (small ++ (large ++ (a :: rest ++ y))))
        (x.length + small.length + large.length) = some a := by
      have hmiddle := read_middle (x ++ small ++ large) a (rest ++ y)
      simpa [add_assoc] using hmiddle
    have hj : int (x.length + small.length + large.length + 1) =
        some (x.length + small.length + large.length + 1 : ℤ) := int_eq (by omega) (by omega)
    by_cases ha : a ≤ p
    · obtain ⟨large', hperm, hswap⟩ := swap_next x small large a (rest ++ y)
      have hi : int (x.length + small.length - 1 + 1) = some (x.length + small.length : ℤ) := by
        rw [sub_add_cancel]
        exact int_eq (by omega) (by omega)
      have hsplit : Split p (small ++ [a]) large' := by
        constructor
        · intro b hb
          rcases List.mem_append.mp hb with hb | hb
          · exact h.small b hb
          · rw [List.mem_singleton.mp hb]
            exact ha
        · intro b hb
          exact h.large b (hperm.mem_iff.mp hb)
      have hcount : large'.length = large.length := hperm.length_eq
      obtain ⟨small'', large'', hsplit', hperm', hloop⟩ := ih hsplit (by
        rw [List.length_append, List.length_singleton, hcount]
        omega)
      refine ⟨small'', large'', hsplit', hperm'.trans ?_, ?_⟩
      · have hmove : (small ++ [a] ++ large').Perm (small ++ (large ++ [a])) := by
          rw [List.append_assoc]
          exact List.Perm.append_left _
            (List.perm_append_comm.trans (hperm.append_right _))
        simpa using hmove.append_right rest
      · rw [List.cons_append] at hread ⊢
        simp only [List.length_cons, partitionLoop, Option.bind_eq_bind, hread, Option.bind_some,
          if_pos ha, hi, hswap, hj]
        rw [List.length_append, List.length_singleton, hcount] at hloop
        push_cast at hloop
        simpa [add_sub_assoc, add_assoc, add_comm, add_left_comm] using hloop
    · have hsplit : Split p small (large ++ [a]) := by
        refine ⟨h.small, ?_⟩
        intro b hb
        rcases List.mem_append.mp hb with hb | hb
        · exact h.large b hb
        · rw [List.mem_singleton.mp hb]
          exact lt_of_not_ge ha
      obtain ⟨small', large', hsplit', hperm', hloop⟩ := ih hsplit (by
        rw [List.length_append, List.length_singleton]
        omega)
      refine ⟨small', large', hsplit', ?_, ?_⟩
      · simpa using hperm'
      · simp only [List.length_cons, partitionLoop, Option.bind_eq_bind, hread, Option.bind_some,
          if_neg ha, hj]
        rw [List.length_append, List.length_singleton] at hloop
        push_cast at hloop
        simpa [add_assoc] using hloop

/-- The pivot ends up between the elements up to it and those above it. -/
theorem partition_eq (x m : List α) (p : α) (y : List α)
    (hlen : x.length + m.length + 1 < 2 ^ 31) :
    ∃ small large, Split p small large ∧ (small ++ large).Perm m ∧
      partition (x ++ (m ++ p :: y)) x.length (x.length + m.length) =
      some ((x.length + small.length : ℤ), x ++ (small ++ p :: (large ++ y))) := by
  have hpivot : read (x ++ (m ++ p :: y)) (x.length + m.length) = some p := by
    have hmiddle := read_middle (x ++ m) p y
    simpa using hmiddle
  have hnone : Split p ([] : List α) [] := by constructor <;> simp
  obtain ⟨small, large, hsplit, hperm, hloop⟩ := partitionLoop_eq x m (p :: y) hnone (by
    simp only [List.length_nil]
    omega)
  obtain ⟨large', hlarge, hswap⟩ := swap_next x small large p y
  have hcount : small.length + large.length = m.length := by
    rw [← List.length_append, hperm.length_eq]
    simp
  have hhigh : (x.length + m.length : ℤ) = x.length + small.length + large.length := by omega
  have hturns : ((x.length + m.length : ℤ) - x.length).toNat = m.length := by omega
  have hlow : int (x.length - 1) = some (x.length - 1 : ℤ) := int_eq (by omega) (by omega)
  have hpi : int (x.length + small.length - 1 + 1) = some (x.length + small.length : ℤ) := by
    rw [sub_add_cancel]
    exact int_eq (by omega) (by omega)
  refine ⟨small, large', ⟨hsplit.small, ?_⟩, ?_, ?_⟩
  · intro a ha
    exact hsplit.large a (hlarge.mem_iff.mp ha)
  · exact (List.Perm.append_left small hlarge).trans (by simpa using hperm)
  · simp only [List.nil_append, List.length_nil, Nat.cast_zero, add_zero] at hloop
    rw [← hhigh] at hswap
    simp only [partition, Option.bind_eq_bind, hpivot, Option.bind_some, hlow, hturns, hloop, hpi,
      hswap]
    simp

/-! ## `quick_sort` -/

/-- A sorted part up to the pivot, the pivot, and a sorted part above it. -/
theorem Split.pairwise {p : α} {small large : List α} (h : Split p small large)
    (hsmall : small.Pairwise (· ≤ ·)) (hlarge : large.Pairwise (· ≤ ·)) :
    (small ++ p :: large).Pairwise (· ≤ ·) := by
  rw [List.pairwise_append, List.pairwise_cons]
  refine ⟨hsmall, ⟨fun b hb => (h.large b hb).le, hlarge⟩, ?_⟩
  intro a ha b hb
  rcases List.mem_cons.mp hb with rfl | hb
  · exact h.small a ha
  · exact (h.small a ha).trans (h.large b hb).le

theorem Split.of_perm {p : α} {small large small' large' : List α} (h : Split p small large)
    (hsmall : small'.Perm small) (hlarge : large'.Perm large) : Split p small' large' :=
  ⟨fun a ha => h.small a (hsmall.mem_iff.mp ha), fun a ha => h.large a (hlarge.mem_iff.mp ha)⟩

/-- `quick_sort` sorts its range and leaves the rest of the array as it is. -/
theorem quickSort_eq {fuel : ℕ} (x m y : List α) (hfuel : m.length < fuel)
    (hlen : x.length + m.length < 2 ^ 31) :
    ∃ m', m'.Perm m ∧ m'.Pairwise (· ≤ ·) ∧
      quickSort fuel (x ++ (m ++ y)) x.length (x.length + m.length - 1) =
      some (x ++ (m' ++ y)) := by
  induction fuel generalizing x m y with
  | zero => omega
  | succ fuel ih =>
    unfold quickSort
    rcases List.eq_nil_or_concat' m with rfl | ⟨m, p, rfl⟩
    · refine ⟨[], List.Perm.refl _, List.Pairwise.nil, ?_⟩
      rw [if_neg (by simp)]
    · have hcount : ((m ++ [p]).length : ℤ) = m.length + 1 := by simp
      rw [List.length_append, List.length_singleton] at hfuel hlen
      by_cases hm : m = []
      · subst hm
        refine ⟨[p], List.Perm.refl _, List.pairwise_singleton _ _, ?_⟩
        rw [if_neg (by simp)]
        rfl
      · have hpos := List.length_pos_of_ne_nil hm
        obtain ⟨small, large, hsplit, hperm, hpartition⟩ := partition_eq x m p y hlen
        have hsum : small.length + large.length = m.length := by
          rw [← List.length_append, hperm.length_eq]
        obtain ⟨small', hsmall, hsorted, hleft⟩ :=
          ih x small (p :: (large ++ y)) (by omega) (by omega)
        have hx : (x ++ (small' ++ [p])).length = x.length + small.length + 1 := by
          simp [hsmall.length_eq, add_assoc]
        obtain ⟨large', hlarge, hsorted', hright⟩ :=
          ih (x ++ (small' ++ [p])) large y (by omega) (by omega)
        have hhigh : (x.length + (m ++ [p]).length - 1 : ℤ) = x.length + m.length := by omega
        have hpi : int (x.length + small.length - 1) = some (x.length + small.length - 1 : ℤ) :=
          int_eq (by omega) (by omega)
        have hpi' : int (x.length + small.length + 1) = some (x.length + small.length + 1 : ℤ) :=
          int_eq (by omega) (by omega)
        have hend : ((x.length + small.length + 1 : ℕ) + large.length - 1 : ℤ) =
            x.length + m.length := by
          omega
        refine ⟨small' ++ p :: large', ?_, (hsplit.of_perm hsmall hlarge).pairwise hsorted hsorted',
          ?_⟩
        · calc (small' ++ p :: large').Perm (p :: (small' ++ large')) := List.perm_middle
            _ |>.Perm (p :: m) := ((hsmall.append hlarge).trans hperm).cons p
            _ |>.Perm (m ++ [p]) := (List.perm_append_singleton p m).symm
        · rw [hx, hend] at hright
          push_cast at hright
          rw [hhigh, if_pos (by omega), List.append_assoc, List.singleton_append]
          simp only [Option.bind_eq_bind, hpartition, Option.bind_some, hpi, hleft, hpi']
          simpa using hright

/-! ## `is_sorted` -/

/-- The loop compares neighbours, from the index `i` on. -/
theorem isSortedLoop_eq (x : List α) (a : α) (l : List α) :
    isSortedLoop (x ++ a :: l) l.length x.length =
      some (decide ((a :: l).Pairwise (· ≤ ·))) := by
  induction l generalizing x a with
  | nil => simp [isSortedLoop]
  | cons b l ih =>
    have hread : read (x ++ a :: b :: l) x.length = some a := read_middle x a (b :: l)
    have hmiddle := read_middle (x ++ [a]) b l
    have hnext : read (x ++ a :: b :: l) (x.length + 1) = some b := by simpa using hmiddle
    have hloop := ih (x ++ [a]) b
    simp only [List.length_append, List.length_singleton, List.append_assoc,
      List.singleton_append] at hloop
    simp only [List.length_cons, isSortedLoop, Option.bind_eq_bind, hread, hnext,
      Option.bind_some, hloop]
    by_cases hab : a ≤ b
    · rw [if_neg (by simpa using hab)]
      have hiff : (a :: b :: l).Pairwise (· ≤ ·) ↔ (b :: l).Pairwise (· ≤ ·) := by
        rw [List.pairwise_cons (a := a)]
        constructor
        · exact And.right
        · intro h
          refine ⟨?_, h⟩
          intro c hc
          rcases List.mem_cons.mp hc with rfl | hc
          · exact hab
          · exact hab.trans ((List.pairwise_cons.mp h).1 c hc)
      simp only [hiff]
    · rw [if_pos (not_le.mp hab)]
      have hnot : ¬(a :: b :: l).Pairwise (· ≤ ·) := by
        intro h
        exact hab ((List.pairwise_cons.mp h).1 b List.mem_cons_self)
      rw [decide_eq_false hnot]
      rfl

/-- `is_sorted` reads only inside the array and says whether it is in order. -/
theorem isSorted_eq (tab : List α) :
    isSorted tab tab.length = some (decide (tab.Pairwise (· ≤ ·))) := by
  cases tab with
  | nil => simp [isSorted]
  | cons a l =>
    unfold isSorted
    rw [if_neg (by simp)]
    exact isSortedLoop_eq [] a l

/-! ## `sort` -/

/-- With more turns than elements, `sort` returns, and the array is a permutation in order. -/
theorem sort_sorted (tab : List α) (hlen : tab.length < 2 ^ 31) :
    ∃ tab', (∀ fuel, tab.length < fuel → sort fuel tab tab.length = some tab') ∧
      tab'.Perm tab ∧ tab'.Pairwise (· ≤ ·) ∧ isSorted tab' tab'.length = some true := by
  have hsort : ∀ fuel, tab.length < fuel → ∃ tab', tab'.Perm tab ∧ tab'.Pairwise (· ≤ ·) ∧
      sort fuel tab tab.length = some tab' := by
    intro fuel hfuel
    unfold sort
    by_cases hzero : tab.length = 0
    · rw [List.length_eq_zero_iff.mp hzero]
      exact ⟨[], List.Perm.refl _, List.Pairwise.nil, rfl⟩
    · obtain ⟨tab', hperm, hsorted, hquick⟩ :=
        quickSort_eq [] tab [] hfuel (by simpa using hlen)
      have hhigh : (BitVec.ofNat 32 (tab.length - 1)).toInt = 0 + tab.length - 1 := by
        rw [BitVec.toInt_ofNat', Int.bmod_eq_of_le] <;> omega
      refine ⟨tab', hperm, hsorted, ?_⟩
      rw [if_neg hzero, hhigh]
      simpa using hquick
  obtain ⟨tab', hperm, hsorted, -⟩ := hsort (tab.length + 1) (by omega)
  refine ⟨tab', ?_, hperm, hsorted, ?_⟩
  · intro fuel hfuel
    obtain ⟨tab'', hperm', hsorted', heq⟩ := hsort fuel hfuel
    have hunique : tab'' = tab' :=
      List.Perm.eq_of_pairwise' hsorted' hsorted (hperm'.trans hperm.symm)
    rw [heq, hunique]
  · rw [isSorted_eq, decide_eq_true hsorted]

theorem sort_sorted_three : ∃ tab', (∀ fuel, 3 < fuel → sort fuel [2, -1, (0 : ℤ)] 3 = some tab') ∧
    tab'.Perm [2, -1, 0] ∧ tab'.Pairwise (· ≤ ·) ∧ isSorted tab' tab'.length = some true :=
  sort_sorted [2, -1, 0] (by simp)

end Sorting
