import Psar.Sorting.MergeSegments
import Psar.Sorting.Proofs.QuickSortProofs

/-!
# Proofs: `merge_segments`

The loop over the segments finds the least first element of what is left of them, and the merge loop
takes it. As many elements are left as there are turns, so that there is always one to take.
-/

namespace Sorting

open Cells (read write read_natCast write_middle)
open Merge (Least Merged)

variable {α : Type}

theorem checked_bind {β γ : Type} (b : β) (f : β → Call γ) (log : List String) :
    (checked (some b) >>= f) log = f b log := rfl

theorem ensureError_bind {γ : Type} (fmt : String) (f : Unit → Call γ) (log : List String) :
    (ensureError true fmt >>= f) log = f () log := rfl

/-! ## What is left of the segments -/

/-- The array consists of as many segments as there are indices, and no index is behind the end of
its segment. -/
structure Fits (tab : List α) (segmentSize : ℕ) (indices : List ℕ) : Prop where
  length : tab.length = indices.length * segmentSize
  index : ∀ index ∈ indices, index ≤ segmentSize

/-- An element of a segment is inside the array. -/
theorem Fits.lt_length {tab : List α} {segmentSize : ℕ} {indices : List ℕ}
    (h : Fits tab segmentSize indices) {s index : ℕ} (hs : s < indices.length)
    (hindex : index < segmentSize) : s * segmentSize + index < tab.length := by
  have hnext : (s + 1) * segmentSize ≤ indices.length * segmentSize :=
    Nat.mul_le_mul_right segmentSize hs
  rw [h.length]
  rw [Nat.succ_mul] at hnext
  omega

theorem Fits.incr {tab : List α} {segmentSize : ℕ} {indices : List ℕ} {s index : ℕ}
    (h : Fits tab segmentSize indices) (hlt : index < segmentSize) :
    Fits tab segmentSize (indices.set s (index + 1)) := by
  constructor
  · rw [List.length_set]
    exact h.length
  · intro i hi
    rcases List.mem_or_eq_of_mem_set hi with hi | rfl
    · exact h.index i hi
    · exact hlt

theorem getElem?_segment (tab : List α) {segmentSize : ℕ} (s : ℕ) {index : ℕ}
    (h : index < segmentSize) :
    (segment tab segmentSize s)[index]? = tab[s * segmentSize + index]? := by
  unfold segment
  rw [List.getElem?_take, if_pos h, List.getElem?_drop]

theorem getElem?_remaining (tab : List α) (segmentSize : ℕ) (indices : List ℕ) (s : ℕ) :
    (remaining tab segmentSize indices)[s]? =
      indices[s]?.map fun index => (segment tab segmentSize s).drop index := by
  unfold remaining
  rw [List.getElem?_mapIdx]

/-- A segment from which all elements have been taken. -/
theorem remaining_of_le (tab : List α) {segmentSize : ℕ} {indices : List ℕ} {s index : ℕ}
    (hget : indices[s]? = some index) (hle : segmentSize ≤ index) :
    (remaining tab segmentSize indices)[s]? = some [] := by
  rw [getElem?_remaining, hget, Option.map_some, List.drop_eq_nil_of_le]
  unfold segment
  rw [List.length_take]
  omega

/-- A segment with an element left begins with the one at its index. -/
theorem remaining_of_lt {tab : List α} {segmentSize : ℕ} {indices : List ℕ} {s index : ℕ} {v : α}
    (hget : indices[s]? = some index) (hlt : index < segmentSize)
    (hv : tab[s * segmentSize + index]? = some v) :
    (remaining tab segmentSize indices)[s]? =
      some (v :: (segment tab segmentSize s).drop (index + 1)) := by
  rw [← getElem?_segment tab s hlt] at hv
  obtain ⟨hindex, rfl⟩ := List.getElem?_eq_some_iff.mp hv
  rw [getElem?_remaining, hget, Option.map_some, List.drop_eq_getElem_cons hindex]

/-- Advancing an index takes an element from its segment. -/
theorem remaining_set {tab : List α} {segmentSize : ℕ} {indices : List ℕ} {s index : ℕ}
    (hget : indices[s]? = some index) :
    remaining tab segmentSize (indices.set s (index + 1)) =
      (remaining tab segmentSize indices).set s
        ((segment tab segmentSize s).drop (index + 1)) := by
  obtain ⟨hs, -⟩ := List.getElem?_eq_some_iff.mp hget
  have hs' : s < (remaining tab segmentSize indices).length := by
    unfold remaining
    rw [List.length_mapIdx]
    exact hs
  apply List.ext_getElem?
  intro t
  rw [getElem?_remaining]
  by_cases ht : s = t
  · subst ht
    rw [List.getElem?_set_self hs, List.getElem?_set_self hs', Option.map_some]
  · rw [List.getElem?_set_ne ht, List.getElem?_set_ne ht, getElem?_remaining]

/-- At the start the segments are left as they are. -/
theorem remaining_replicate (tab : List α) (segmentSize numSegments : ℕ) :
    remaining tab segmentSize (List.replicate numSegments 0) =
      (List.range numSegments).map (segment tab segmentSize) := by
  apply List.ext_getElem?
  intro t
  rw [getElem?_remaining, List.getElem?_replicate, List.getElem?_map]
  by_cases ht : t < numSegments
  · rw [if_pos ht, List.getElem?_range ht]
    simp
  · rw [if_neg ht, List.getElem?_eq_none (by simpa using ht)]
    rfl

theorem flatten_segments (tab : List α) (segmentSize numSegments : ℕ) :
    ((List.range numSegments).map (segment tab segmentSize)).flatten =
      tab.take (numSegments * segmentSize) := by
  induction numSegments with
  | zero => simp
  | succ n ih =>
    rw [List.range_succ, List.map_append, List.flatten_append, ih, Nat.succ_mul, List.take_add]
    simp [segment]

/-! ## The loop over the segments -/

variable [LinearOrder α]

/-- The segment at `s` does not begin with a smaller element. -/
theorem Candidate.keep {rest : List (List α)} {s : ℕ} {min : α × Option ℕ} {l : List α}
    (h : Candidate rest s min) (hs : rest[s]? = some l) (hnone : min.2 = none → l = [])
    (hle : ∀ b m, l = b :: m → min.1 ≤ b) : Candidate rest (s + 1) min := by
  have hstep : ∀ t, t < s + 1 → t < s ∨ t = s := by omega
  constructor
  · intro hmin t ht
    rcases hstep t ht with ht | rfl
    · exact h.nothing hmin t ht
    · rw [hs, hnone hmin]
  · intro s' hs'
    refine ⟨(h.found s' hs').1, ?_⟩
    intro t ht b m hb
    rcases hstep t ht with ht | rfl
    · exact (h.found s' hs').2 t ht b m hb
    · rw [hs] at hb
      exact hle b m (Option.some.inj hb)

/-- The segment at `s` begins with a smaller element, or with the first one. -/
theorem Candidate.replace {rest : List (List α)} {s : ℕ} {min : α × Option ℕ} {v : α} {l : List α}
    (h : Candidate rest s min) (hs : rest[s]? = some (v :: l)) (hless : min.2 = none ∨ v < min.1) :
    Candidate rest (s + 1) (v, some s) := by
  have hstep : ∀ t, t < s + 1 → t < s ∨ t = s := by omega
  constructor
  · intro hnone
    cases hnone
  · rintro s' ⟨⟩
    refine ⟨⟨l, hs⟩, ?_⟩
    intro t ht b m hb
    rcases hstep t ht with ht | rfl
    · cases hmin : min.2 with
      | none =>
        rw [h.nothing hmin t ht] at hb
        cases hb
      | some s' =>
        have hv : v < min.1 := hless.resolve_left (by simp [hmin])
        exact hv.le.trans ((h.found s' hmin).2 t ht b m hb)
    · rw [hs] at hb
      cases hb
      exact le_rfl

/-- Every turn reads inside the two arrays and looks at one more segment. -/
theorem minSegment_candidate {tab : List α} {segmentSize : ℕ} {indices : List ℕ}
    (h : Fits tab segmentSize indices) (n s : ℕ) (hn : s + n = indices.length) (min : α × Option ℕ)
    (hmin : Candidate (remaining tab segmentSize indices) s min) :
    ∃ min', minSegment tab segmentSize indices n s min = some min' ∧
      Candidate (remaining tab segmentSize indices) indices.length min' := by
  induction n generalizing s min with
  | zero =>
    rw [Nat.add_zero] at hn
    exact ⟨min, rfl, hn ▸ hmin⟩
  | succ n ih =>
    have hs : s < indices.length := by omega
    have hnext : s + 1 + n = indices.length := by omega
    have hget : indices[s]? = some indices[s] := List.getElem?_eq_getElem hs
    simp only [minSegment, read_natCast, hget, Option.bind_eq_bind, Option.bind_some]
    by_cases hlt : indices[s] < segmentSize
    · obtain ⟨v, hv⟩ : ∃ v, tab[s * segmentSize + indices[s]]? = some v :=
        ⟨_, List.getElem?_eq_getElem (h.lt_length hs hlt)⟩
      have hfirst := remaining_of_lt hget hlt hv
      simp only [if_pos hlt, hv, Option.bind_some]
      by_cases hless : min.2 = none ∨ v < min.1
      · rw [if_pos hless]
        exact ih (s + 1) hnext _ (hmin.replace hfirst hless)
      · rw [if_neg hless]
        obtain ⟨hnone, hle⟩ := not_or.mp hless
        apply ih (s + 1) hnext _ (hmin.keep hfirst _ _)
        · intro hnone'
          exact absurd hnone' hnone
        · rintro b m ⟨⟩
          exact not_lt.mp hle
    · have hempty := remaining_of_le tab hget (not_lt.mp hlt)
      rw [if_neg hlt]
      apply ih (s + 1) hnext _ (hmin.keep hempty _ _)
      · intro _
        rfl
      · rintro b m ⟨⟩

/-! ## The merge loop -/

/-- As long as elements are left, the loop over the segments finds the least of them. -/
theorem minSegment_least [Zero α] {tab : List α} {segmentSize : ℕ} {indices : List ℕ}
    (h : Fits tab segmentSize indices)
    (hleft : 0 < (remaining tab segmentSize indices).flatten.length) :
    ∃ v s index, minSegment tab segmentSize indices indices.length 0 (0, none) =
        some (v, some s) ∧ indices[s]? = some index ∧ index < segmentSize ∧
      Least (remaining tab segmentSize indices) s v
        ((segment tab segmentSize s).drop (index + 1)) := by
  have hstart : Candidate (remaining tab segmentSize indices) 0 ((0 : α), none) := by
    constructor
    · intro _ t ht
      omega
    · rintro s ⟨⟩
  obtain ⟨⟨v, minSeg⟩, heq, hmin⟩ := minSegment_candidate h indices.length 0 (by omega) _ hstart
  have hcount : (remaining tab segmentSize indices).length = indices.length := by
    unfold remaining
    rw [List.length_mapIdx]
  cases minSeg with
  | none =>
    exfalso
    have hempty : ∀ l ∈ remaining tab segmentSize indices, l = [] := by
      intro l hl
      obtain ⟨t, ht⟩ := List.mem_iff_getElem?.mp hl
      have hlt := (List.getElem?_eq_some_iff.mp ht).1
      rw [hmin.nothing rfl t (by omega)] at ht
      exact (Option.some.inj ht).symm
    rw [List.flatten_eq_nil_iff.mpr hempty] at hleft
    simp at hleft
  | some s =>
    obtain ⟨⟨l, hfirst⟩, hle⟩ := hmin.found s rfl
    obtain ⟨index, hget, hdrop⟩ : ∃ index, indices[s]? = some index ∧
        (segment tab segmentSize s).drop index = v :: l := by
      rw [getElem?_remaining] at hfirst
      exact Option.map_eq_some_iff.mp hfirst
    have hlt : index < segmentSize := by
      by_contra hge
      rw [remaining_of_le _ hget (not_lt.mp hge)] at hfirst
      cases hfirst
    have hl : l = (segment tab segmentSize s).drop (index + 1) := by
      rw [← List.tail_drop, hdrop, List.tail_cons]
    refine ⟨v, s, index, heq, hget, hlt, hl ▸ hfirst, ?_⟩
    intro t b m hb
    have hlt' := (List.getElem?_eq_some_iff.mp hb).1
    exact hle t (by omega) b m hb

/-- Every turn moves one element from the segments to the buffer, and logs nothing. -/
theorem mergeLoop_merged [Zero α] {tab : List α} {segmentSize numSegments : ℕ} (junk : List α)
    {done : List α} {indices : List ℕ} (h : Fits tab segmentSize indices)
    (hcount : indices.length = numSegments)
    (hleft : (remaining tab segmentSize indices).flatten.length = junk.length)
    (hmerged : Merged done (remaining tab segmentSize indices)) :
    ∃ tmp, mergeLoop tab numSegments segmentSize junk.length done.length (done ++ junk) indices [] =
        some (tmp, []) ∧
      tmp.Perm (done ++ (remaining tab segmentSize indices).flatten) ∧ tmp.Pairwise (· ≤ ·) := by
  induction junk generalizing done indices with
  | nil =>
    refine ⟨done, ?_, ?_, hmerged.sorted⟩
    · rw [List.append_nil]
      rfl
    · rw [List.length_eq_zero_iff.mp hleft, List.append_nil]
  | cons j junk ih =>
    obtain ⟨v, s, index, hmin, hget, hlt, hleast⟩ :=
      minSegment_least h (by rw [hleft]; simp)
    have hs : (s : ℤ) < indices.length := by
      exact_mod_cast (List.getElem?_eq_some_iff.mp hget).1
    have hwrite : write (done ++ j :: junk) done.length v = some ((done ++ [v]) ++ junk) := by
      rw [write_middle, List.append_assoc, List.singleton_append]
    have hadvance : write indices s (index + 1) = some (indices.set s (index + 1)) := by
      unfold write
      rw [if_pos ⟨by omega, hs⟩, Int.toNat_natCast]
    have hperm := Merge.perm_flatten_set hleast.get
    rw [← remaining_set hget] at hperm
    have hnext := hmerged.take hleast
    rw [← remaining_set hget] at hnext
    obtain ⟨tmp, heq, hperm', hsorted⟩ := ih (h.incr hlt) (by rw [List.length_set]; exact hcount)
      (by
        have hlen := hperm.length_eq
        rw [List.length_cons] at hlen hleft
        omega)
      hnext
    refine ⟨tmp, ?_, ?_, hsorted⟩
    · rw [List.length_append, List.length_singleton] at heq
      subst hcount
      simp only [List.length_cons, mergeLoop, hmin, Option.isSome_some, checked_bind,
        ensureError_bind, hwrite, read_natCast, hget, hadvance]
      exact heq
    · refine hperm'.trans ?_
      rw [List.append_assoc, List.singleton_append]
      exact hperm.append_left done

/-! ## `merge_segments` -/

/-- `merge_segments` returns and logs nothing: no access is outside an array and there is always a
candidate. -/
theorem mergeSegments_sorted [Zero α] (garbage : ℕ → α) (tab : List α) {segmentSize : ℕ}
    (hpos : 0 < segmentSize) (hdvd : segmentSize ∣ tab.length)
    (hsorted : ∀ s < tab.length / segmentSize, (segment tab segmentSize s).Pairwise (· ≤ ·)) :
    ∃ tab', mergeSegments (some garbage) true tab tab.length segmentSize [] = some (tab', []) ∧
      tab'.Perm tab ∧ tab'.Pairwise (· ≤ ·) ∧ isSorted tab' tab'.length = some true := by
  obtain ⟨numSegments, hlength⟩ := hdvd
  have hdiv : tab.length / segmentSize = numSegments := by
    rw [hlength, Nat.mul_div_cancel_left _ hpos]
  have hflatten : ((List.range numSegments).map (segment tab segmentSize)).flatten = tab := by
    rw [flatten_segments, Nat.mul_comm, ← hlength, List.take_length]
  have hfits : Fits tab segmentSize (List.replicate numSegments 0) := by
    constructor
    · rw [List.length_replicate, hlength, Nat.mul_comm]
    · intro index hindex
      rw [List.eq_of_mem_replicate hindex]
      exact Nat.zero_le _
  have hmerged : Merged [] (remaining tab segmentSize (List.replicate numSegments 0)) := by
    apply Merged.start
    rw [remaining_replicate]
    intro l hl
    obtain ⟨s, hs, rfl⟩ := List.mem_map.mp hl
    exact hsorted s (by rw [hdiv]; exact List.mem_range.mp hs)
  obtain ⟨tmp, hloop, hperm, hsort⟩ := mergeLoop_merged ((List.range tab.length).map garbage) hfits
    List.length_replicate (by rw [remaining_replicate, hflatten]; simp) hmerged
  rw [remaining_replicate, hflatten, List.nil_append] at hperm
  have hcopy : copyBack tab tmp tab.length = some tmp := by
    have hlen := hperm.length_eq
    unfold copyBack
    rw [if_pos ⟨le_rfl, hlen.ge⟩, List.drop_length, List.append_nil, ← hlen, List.take_length]
  refine ⟨tmp, ?_, hperm, hsort, ?_⟩
  · rw [List.length_map, List.length_range] at hloop
    have hmod : tab.length % segmentSize = 0 := by
      rw [hlength, Nat.mul_mod_right]
    simp only [List.length_nil, List.nil_append] at hloop
    simp only [mergeSegments, if_neg hpos.ne', checked_bind, hmod, hdiv, decide_true,
      ensureError_bind, Option.isSome_some, Option.elim_some, if_true]
    show (mergeLoop tab numSegments segmentSize tab.length 0 _ _ []).bind _ = _
    rw [hloop]
    show checked (copyBack tab tmp tab.length) [] = _
    rw [hcopy]
    rfl
  · rw [isSorted_eq, decide_eq_true hsort]

theorem mergeSegments_sorted_two : ∃ tab',
    mergeSegments (some fun _ => 0) true [1, 3, 1, (2 : ℤ)] 4 2 [] = some (tab', []) ∧
      tab'.Perm [1, 3, 1, 2] ∧ tab'.Pairwise (· ≤ ·) ∧ isSorted tab' tab'.length = some true :=
  mergeSegments_sorted (fun _ => 0) [1, 3, 1, 2] (by decide) (by decide) (by decide)

end Sorting
