import Psar.Sorting.ParallelSort
import Psar.Sorting.Proofs.MergeSegmentsProofs
import Psar.Library.Proofs.NetworkProofs

/-!
# Proofs: the parallel sort

A worker permutes its own segment, and once all segments are in order it changes nothing any more.
So it does not matter when the workers get their locks: what `main_node` has found in order stays in
order.
-/

namespace Sorting

open Cells (write write_middle)

/-! ## `main` -/

theorem fits_of_mainArgs {argc : ℕ} {port number size : BitVec 32} {a : Args}
    (h : mainArgs argc port number size = .ok a) (hsize : 0 < size.toInt)
    (hlt : a.tabSize < 2 ^ 31) : a.Fits := by
  unfold mainArgs at h
  dsimp only at h
  split_ifs at h with hargc hport hport' hle hpos
  obtain rfl := Except.ok.inj h
  have hsigned : 2 * size.toNat < 2 ^ 32 := BitVec.toInt_pos_iff.mp hsize.le
  have hpos' : 0 < size.toNat := by
    rw [BitVec.toInt_eq_toNat_of_lt hsigned] at hsize
    omega
  have hnat : (size.signExtend 64).toNat = size.toNat := by
    rw [BitVec.signExtend_eq_setWidth_of_msb_false (BitVec.msb_eq_false_iff_two_mul_lt.mpr hsigned),
      BitVec.toNat_setWidth_of_le (by decide)]
  have hprod : size.toNat * 4096 * (number.signExtend 64).toNat ≤ 2 ^ 31 * 4096 * 100 :=
    Nat.mul_le_mul (Nat.mul_le_mul_right _ (by omega)) hle
  have htab : (size.signExtend 64 * pageSize * number.signExtend 64).toNat =
      size.toNat * 4096 * (number.signExtend 64).toNat := by
    rw [BitVec.toNat_mul, BitVec.toNat_mul, hnat, Nat.mod_mul_mod]
    exact Nat.mod_eq_of_lt (hprod.trans_lt (by decide))
  refine ⟨?_, ?_, hlt⟩
  · exact htab ▸ Nat.dvd_mul_left _ _
  · exact htab ▸ Nat.mul_pos (Nat.mul_pos hpos' (by decide)) hpos

/-! ## Segments -/

section Segment

variable {α : Type} {tab m : List α} {z i k : ℕ}

theorem length_segment (h : (i + 1) * z ≤ tab.length) : (segment tab z i).length = z := by
  rw [Nat.succ_mul] at h
  rw [segment, List.length_take, List.length_drop]
  omega

/-- The array with another segment at `i`. -/
theorem segment_replace (hi : (i + 1) * z ≤ tab.length) (hm : m.length = z) :
    segment (tab.take (i * z) ++ m ++ tab.drop (i * z + z)) z k =
      if k = i then m else segment tab z k := by
  rw [Nat.succ_mul] at hi
  have htake : (tab.take (i * z)).length = i * z := by
    rw [List.length_take]
    omega
  apply List.ext_getElem?
  intro j
  by_cases hj : j < z
  · rw [getElem?_segment _ k hj]
    split_ifs with hk
    · subst hk
      rw [List.append_assoc, List.getElem?_append_right (by omega), htake,
        List.getElem?_append_left (by omega)]
      congr 1
      omega
    · rw [getElem?_segment _ k hj]
      rcases Nat.lt_or_gt_of_ne hk with hlt | hgt
      · have hle : (k + 1) * z ≤ i * z := Nat.mul_le_mul_right z hlt
        rw [Nat.succ_mul] at hle
        rw [List.append_assoc, List.getElem?_append_left (by omega), List.getElem?_take,
          if_pos (by omega)]
      · have hle : (i + 1) * z ≤ k * z := Nat.mul_le_mul_right z hgt
        rw [Nat.succ_mul] at hle
        rw [List.getElem?_append_right (by simp; omega), List.getElem?_drop]
        congr 1
        simp
        omega
  · have hnone : ∀ l : List α, l.length ≤ z → l[j]? = none := fun l hl =>
      List.getElem?_eq_none (by omega)
    have hsegment : ∀ l : List α, (segment l z k).length ≤ z := fun l => by
      rw [segment, List.length_take]
      exact min_le_left _ _
    rw [hnone _ (hsegment _)]
    split_ifs with hk
    · exact (hnone m hm.le).symm
    · exact (hnone _ (hsegment _)).symm

theorem take_segment_drop (tab : List α) (z i : ℕ) :
    tab.take (i * z) ++ segment tab z i ++ tab.drop (i * z + z) = tab := by
  rw [segment, List.append_assoc, ← List.drop_drop, List.take_append_drop, List.take_append_drop]

end Segment

/-! ## The loops -/

section Loops

variable {α : Type} [LinearOrder α]

theorem sort_eq {fuel : ℕ} {tab : List α} (hfuel : tab.length < fuel) (hlen : tab.length < 2 ^ 31) :
    ∃ tab', sort fuel tab tab.length = some tab' ∧ tab'.Perm tab ∧ tab'.Pairwise (· ≤ ·) := by
  unfold sort
  split_ifs with hzero
  · obtain rfl := List.length_eq_zero_iff.mp hzero
    exact ⟨[], rfl, List.Perm.refl _, List.Pairwise.nil⟩
  · obtain ⟨tab', hperm, hsorted, hquick⟩ := quickSort_eq [] tab [] hfuel (by simpa using hlen)
    have hhigh : (BitVec.ofNat 32 (tab.length - 1)).toInt = 0 + tab.length - 1 := by
      rw [BitVec.toInt_ofNat', Int.bmod_eq_of_le] <;> omega
    refine ⟨tab', ?_, hperm, hsorted⟩
    rw [hhigh]
    simpa using hquick

theorem isSorted_segment {tab : List α} {z i : ℕ} (h : (i + 1) * z ≤ tab.length) :
    isSorted (segment tab z i) z = some (decide ((segment tab z i).Pairwise (· ≤ ·))) := by
  have heq := isSorted_eq (segment tab z i)
  rwa [length_segment h] at heq

theorem pollLoop_eq {tab : List α} {z : ℕ} (n i : ℕ) (hlen : (i + n) * z ≤ tab.length) (b : Bool) :
    pollLoop tab z n i b =
      some (b && decide (∀ k < n, (segment tab z (i + k)).Pairwise (· ≤ ·))) := by
  induction n generalizing i b with
  | zero => simp [pollLoop]
  | succ n ih =>
    have hle : (i + 1) * z ≤ (i + (n + 1)) * z := Nat.mul_le_mul_right z (by omega)
    have hloop := ih (i + 1) (by rwa [Nat.add_right_comm, Nat.add_assoc])
    have hiff : (∀ k < n + 1, (segment tab z (i + k)).Pairwise (· ≤ ·)) ↔
        (segment tab z i).Pairwise (· ≤ ·) ∧
          ∀ k < n, (segment tab z (i + 1 + k)).Pairwise (· ≤ ·) := by
      rw [Nat.forall_lt_succ_left']
      simp [Nat.add_assoc, Nat.add_comm 1]
    simp only [pollLoop, isSorted_segment (hle.trans hlen), Option.bind_eq_bind, Option.bind_some,
      decide_eq_true_eq, hloop, hiff]
    split_ifs with h <;> simp [h]

/-- `i` is the number of elements that have been set, as long as it is not negative. -/
theorem char_toInt : ∀ k < 128, (BitVec.ofNat 8 k).toInt = k ∧
    ((BitVec.ofNat 8 k).signExtend 64).toNat = k := by
  decide

theorem fillLoop_eq (rand : ℕ → α) {fuel : ℕ} (x y : List α) (hx : x.length ≤ 128)
    (hfuel : 128 < fuel + x.length) (hlen : x.length + y.length < 2 ^ 31) :
    fillLoop rand (x.length + y.length) fuel x.length (BitVec.ofNat 8 x.length) (x ++ y) =
      some (x ++ (List.range' x.length (min (128 - x.length) y.length)).map rand ++
        y.drop (128 - x.length)) := by
  induction fuel generalizing x y with
  | zero => omega
  | succ fuel ih =>
    unfold fillLoop
    by_cases hend : x.length = 128
    · have hstop : ¬ ((BitVec.ofNat 8 128).signExtend 64).toNat < 128 + y.length := by
        have hneg : ((BitVec.ofNat 8 128).signExtend 64).toNat = 2 ^ 64 - 128 := by decide
        omega
      simp only [hend, if_neg hstop]
      simp
    · obtain ⟨hint, hnat⟩ := char_toInt x.length (by omega)
      rw [hnat, hint]
      cases y with
      | nil => simp
      | cons b y =>
        have hnext : BitVec.ofNat 8 x.length + 1 = BitVec.ofNat 8 (x ++ [rand x.length]).length := by
          rw [List.length_append, BitVec.ofNat_add]
          rfl
        have hloop := ih (x ++ [rand x.length]) y (by simp; omega) (by simp; omega) (by
          simp at hlen ⊢
          omega)
        have hmin : min (128 - x.length) (y.length + 1) =
            min (128 - (x.length + 1)) y.length + 1 := by omega
        have hdrop : 128 - x.length = 128 - (x.length + 1) + 1 := by omega
        rw [if_pos (by simp), write_middle]
        simp only [Option.bind_eq_bind, Option.bind_some, hnext]
        simp only [List.length_append, List.length_singleton, List.append_assoc,
          List.singleton_append] at hloop ⊢
        rw [List.length_cons, hmin, List.range'_succ, hdrop, List.drop_succ_cons]
        simpa [Nat.add_assoc, Nat.add_comm 1] using hloop

/-- `merge_segments` puts an array of segments that are in order into order. -/
theorem mergeSegments_eq [Zero α] (garbage : ℕ → α) {tab : List α} {z n : ℕ} (hpos : 0 < z)
    (hlen : tab.length = n * z) (hsorted : ∀ k < n, (segment tab z k).Pairwise (· ≤ ·)) :
    ∃ tab', mergeSegments (some garbage) true tab (n * z) z [] = some (tab', []) ∧
      tab'.Perm tab ∧ tab'.Pairwise (· ≤ ·) := by
  have hremaining : remaining tab z (List.replicate n 0) = (List.range n).map (segment tab z) :=
    remaining_replicate tab z n
  have hflatten : ((List.range n).map (segment tab z)).flatten = tab := by
    rw [flatten_segments, ← hlen, List.take_length]
  have hfits : Fits tab z (List.replicate n 0) := by
    constructor
    · rw [List.length_replicate, hlen]
    · intro index hindex
      rw [List.eq_of_mem_replicate hindex]
      exact Nat.zero_le _
  have hmerged : Merge.Merged [] (remaining tab z (List.replicate n 0)) := by
    apply Merge.Merged.start
    rw [hremaining]
    intro l hl
    obtain ⟨k, hk, rfl⟩ := List.mem_map.mp hl
    exact hsorted k (List.mem_range.mp hk)
  obtain ⟨tmp, hloop, hperm, hsort⟩ := mergeLoop_merged ((List.range (n * z)).map garbage) hfits
    List.length_replicate (by simp [hremaining, hflatten, hlen]) hmerged
  rw [hremaining, hflatten, List.nil_append] at hperm
  refine ⟨tmp, ?_, hperm, hsort⟩
  have hcopy : copyBack tab tmp (n * z) = some tmp := by
    unfold copyBack
    rw [if_pos ⟨hlen.ge, (hperm.length_eq.trans hlen).ge⟩, ← hlen, List.drop_length,
      List.append_nil, ← hperm.length_eq, List.take_length]
  simp only [List.length_map, List.length_range, List.length_nil, List.nil_append] at hloop
  simp only [mergeSegments, if_neg hpos.ne', checked_bind, Nat.mul_mod_left,
    Nat.mul_div_cancel _ hpos, decide_true, ensureError_bind, Option.isSome_some, Option.elim_some,
    if_true]
  show (mergeLoop tab n z (n * z) 0 _ _ []).bind _ = _
  rw [hloop]
  show checked (copyBack tab tmp (n * z)) [] = _
  rw [hcopy]
  rfl

end Loops

/-! ## The regions -/

section Regions

variable {α : Type} [LinearOrder α] [Zero α] {a : Args} {lib : CLib α} {tab : List α} {pc : MainPc}
  {nodeId : ℕ}

theorem Args.Fits.mul_segmentSize (h : a.Fits) : a.workerCount * a.segmentSize = a.tabSize :=
  Nat.mul_div_cancel' h.dvd

theorem Args.Fits.segment_le (h : a.Fits) {k : ℕ} (hk : k < a.workerCount) :
    (k + 1) * a.segmentSize ≤ a.tabSize :=
  (Nat.mul_le_mul_right _ hk).trans_eq h.mul_segmentSize

theorem Args.Fits.segmentSize_pos (h : a.Fits) : 0 < a.segmentSize :=
  Nat.div_pos (Nat.le_of_dvd h.pos h.dvd) a.workerCount_pos

theorem Args.Fits.segmentSize_lt (h : a.Fits) : a.segmentSize < 2 ^ 31 :=
  (Nat.div_le_self _ _).trans_lt h.lt

omit [LinearOrder α] in
theorem length_filled (a : Args) (lib : CLib α) : (filled a lib).length = a.tabSize := by
  simp only [filled, List.length_append, List.length_map, List.length_range, List.length_replicate]
  omega

theorem Expected.perm (h : Expected a lib tab pc) (hpc : pc ≠ .fill) : tab.Perm (filled a lib) := by
  cases pc with
  | fill => exact absurd rfl hpc
  | poll => exact h
  | merge => exact h.1
  | check => exact h.1
  | leave => exact h.1

theorem Expected.length (h : Expected a lib tab pc) : tab.length = a.tabSize := by
  cases pc with
  | fill =>
    obtain rfl := h
    exact List.length_replicate
  | _ => exact (h.perm (by decide)).length_eq.trans (length_filled a lib)

omit [Zero α] in
theorem segmentsSorted_of_pairwise (h : tab.Pairwise (· ≤ ·)) : SegmentsSorted a tab :=
  fun _ _ => h.sublist ((List.take_sublist _ _).trans (List.drop_sublist _ _))

/-- What is expected of the array, except after the fill, includes that all segments are in
order. -/
theorem Expected.segmentsSorted (h : Expected a lib tab pc) (hpc : pc ≠ .poll) :
    SegmentsSorted a tab := by
  cases pc with
  | fill =>
    obtain rfl := h
    exact segmentsSorted_of_pairwise (List.pairwise_replicate.mpr (Or.inr le_rfl))
  | poll => exact absurd rfl hpc
  | merge => exact h.2
  | check => exact segmentsSorted_of_pairwise h.2
  | leave => exact segmentsSorted_of_pairwise h.2

omit [Zero α] in
/-- A worker sorts its segment, and a segment that is in order it leaves as it is. -/
theorem workerNode_eq (hfits : a.Fits) (hfuel : a.segmentSize < lib.fuel)
    (hlen : tab.length = a.tabSize) (hpos : 1 ≤ nodeId) (hle : nodeId ≤ a.workerCount) :
    ∃ tab', workerNode a lib tab nodeId = some tab' ∧ tab'.Perm tab ∧
      (segment tab' a.segmentSize (nodeId - 1)).Pairwise (· ≤ ·) ∧
      (∀ k ≠ nodeId - 1, segment tab' a.segmentSize k = segment tab a.segmentSize k) ∧
      ((segment tab a.segmentSize (nodeId - 1)).Pairwise (· ≤ ·) → tab' = tab) := by
  have hend : (nodeId - 1 + 1) * a.segmentSize ≤ tab.length :=
    hlen ▸ hfits.segment_le (by omega)
  have hsize := length_segment hend
  obtain ⟨m, hsort, hperm, hsorted⟩ :=
    sort_eq (hsize.trans_lt hfuel) (hsize.trans_lt hfits.segmentSize_lt)
  rw [hsize] at hsort
  have hm : m.length = a.segmentSize := hperm.length_eq.trans hsize
  have hwhole := take_segment_drop tab a.segmentSize (nodeId - 1)
  refine ⟨_, congrArg (Option.map _) hsort, ?_, ?_, ?_, ?_⟩
  · conv_rhs => rw [← hwhole]
    exact (hperm.append_left _).append_right _
  · rwa [segment_replace hend hm, if_pos rfl]
  · intro k hk
    rw [segment_replace hend hm, if_neg hk]
  · intro hin
    obtain rfl := List.Perm.eq_of_pairwise' hsorted hin hperm
    exact hwhole

/-- A region of a worker leaves what is expected of the array. -/
theorem expected_workerNode (hfits : a.Fits) (hfuel : a.segmentSize < lib.fuel)
    (h : Expected a lib tab pc) (hpos : 1 ≤ nodeId) (hle : nodeId ≤ a.workerCount) :
    ∃ tab', workerNode a lib tab nodeId = some tab' ∧ Expected a lib tab' pc := by
  obtain ⟨tab', heq, hperm, -, -, hsame⟩ := workerNode_eq hfits hfuel h.length hpos hle
  refine ⟨tab', heq, ?_⟩
  by_cases hpc : pc = .poll
  · subst hpc
    exact hperm.trans h
  · rw [hsame (h.segmentsSorted hpc (nodeId - 1) (by omega))]
    exact h

/-- The first region of `main_node` fills the array. -/
theorem mainNode_fill (hfits : a.Fits) (hfuel : 128 < lib.fuel) :
    mainNode a lib (List.replicate a.tabSize 0) .fill [] = some ((filled a lib, .poll), []) := by
  have hfuel' : 128 < lib.fuel + ([] : List α).length := hfuel
  have heq := fillLoop_eq lib.rand [] (List.replicate a.tabSize 0) (by simp) hfuel'
    (by simpa using hfits.lt)
  have hfill : fillLoop lib.rand a.tabSize lib.fuel 0 0 (List.replicate a.tabSize 0) =
      some (filled a lib) := by
    simpa [filled, List.range_eq_range'] using heq
  simp only [mainNode, hfill, checked_bind]
  rfl

/-- The regions of `main_node` are defined, log no error and leave what is expected next. -/
theorem expected_mainNode (hfits : a.Fits) (hfuel : 128 < lib.fuel) (h : Expected a lib tab pc)
    (hpc : pc ≠ .leave) :
    ∃ tab', mainNode a lib tab pc [] = some ((tab', pc.next (SegmentsSorted a tab)), []) ∧
      Expected a lib tab' (pc.next (SegmentsSorted a tab)) ∧ (pc = .poll → tab' = tab) := by
  have hlen := h.length
  cases pc with
  | fill =>
    obtain rfl := h
    exact ⟨filled a lib, mainNode_fill hfits hfuel, List.Perm.refl _, by simp⟩
  | poll =>
    have hbound : (0 + a.workerCount) * a.segmentSize ≤ tab.length := by
      rw [hlen, Nat.zero_add, hfits.mul_segmentSize]
    have hpoll := pollLoop_eq a.workerCount 0 hbound true
    simp only [Nat.zero_add, Bool.true_and] at hpoll
    refine ⟨tab, ?_, ?_, fun _ => rfl⟩
    · simp only [mainNode, hpoll, checked_bind]
      rfl
    · by_cases hsorted : SegmentsSorted a tab
      · simp only [MainPc.next, hsorted, decide_true, if_true]
        exact ⟨h, hsorted⟩
      · simpa [MainPc.next, hsorted] using h
  | merge =>
    obtain ⟨tab', heq, hperm, hsorted⟩ := mergeSegments_eq lib.garbage hfits.segmentSize_pos
      (hlen.trans hfits.mul_segmentSize.symm) h.2
    rw [hfits.mul_segmentSize] at heq
    refine ⟨tab', ?_, ⟨hperm.trans h.1, hsorted⟩, by simp⟩
    show (mergeSegments (some lib.garbage) true tab a.tabSize a.segmentSize []).bind _ = _
    rw [heq]
    rfl
  | check =>
    have hcheck := isSorted_eq tab
    rw [hlen, decide_eq_true h.2] at hcheck
    refine ⟨tab, ?_, h, by simp⟩
    simp only [mainNode, hcheck, checked_bind]
    rfl
  | leave => exact absurd rfl hpc

end Regions

/-! ## The steps of all nodes -/

section Run

variable {α : Type} [LinearOrder α] [Zero α] {a : Args} {lib : CLib α} {s s' : Program α}

theorem MainPc.next_ne_fill (b : Bool) (pc : MainPc) : pc.next b ≠ .fill := by
  cases pc <;> cases b <;> decide

theorem MainPc.eq_of_next_eq_poll {b : Bool} {pc : MainPc} (h : pc.next b = .poll) :
    pc = .fill ∨ pc = .poll := by
  cases pc <;> simp_all [MainPc.next]

theorem step_mainNode (hfits : a.Fits) (hfuel : 128 < lib.fuel) (h : Inv a lib s)
    (hpc : s.main ≠ .leave) :
    ∃ s', s.step a lib .mainNode = some s' ∧ Inv a lib s' ∧
      s'.main = s.main.next (SegmentsSorted a s.tab) ∧ s'.ended = s.ended ∧
      (s.main = .poll → s'.tab = s.tab) := by
  obtain ⟨tab', heq, hexpected, hsame⟩ := expected_mainNode hfits hfuel h.tab hpc
  rw [← h.log] at heq
  exact ⟨_, congrArg (Option.map _) heq, ⟨h.log, hexpected⟩, rfl, rfl, hsame⟩

theorem step_workerNode (hfits : a.Fits) (hfuel : a.segmentSize < lib.fuel) (h : Inv a lib s)
    {nodeId : ℕ} (hid : 1 ≤ nodeId ∧ nodeId ≤ a.workerCount ∧ nodeId ∉ s.ended) :
    ∃ s', s.step a lib (.workerNode nodeId) = some s' ∧ Inv a lib s' ∧ s'.main = s.main ∧
      s'.ended = nodeId :: s.ended := by
  obtain ⟨tab', heq, hexpected⟩ := expected_workerNode hfits hfuel h.tab hid.1 hid.2.1
  refine ⟨{ s with tab := tab', ended := nodeId :: s.ended }, ?_, ⟨h.log, hexpected⟩, rfl, rfl⟩
  simp [Program.step, hid, heq]

theorem inv_init (a : Args) (lib : CLib α) : Inv a lib (Program.init a) := ⟨rfl, rfl⟩

theorem inv_step (hfits : a.Fits) (hfuel : 128 < lib.fuel ∧ a.segmentSize < lib.fuel)
    (h : Inv a lib s) {e : Step} (hstep : s.step a lib e = some s') : Inv a lib s' := by
  cases e with
  | mainNode =>
    by_cases hpc : s.main = .leave
    · simp only [Program.step, hpc] at hstep
      cases hstep
    · obtain ⟨s₁, hs₁, hinv, -⟩ := step_mainNode hfits hfuel.1 h hpc
      obtain rfl := Option.some.inj (hs₁.symm.trans hstep)
      exact hinv
  | workerNode nodeId =>
    obtain ⟨hid, -⟩ := Option.ite_none_right_eq_some.mp hstep
    obtain ⟨s₁, hs₁, hinv, -⟩ := step_workerNode hfits hfuel.2 h hid
    obtain rfl := Option.some.inj (hs₁.symm.trans hstep)
    exact hinv

theorem inv_run (hfits : a.Fits) (hfuel : 128 < lib.fuel ∧ a.segmentSize < lib.fuel)
    {es : List Step} (hrun : Network.run (Program.step a lib) (Program.init a) es = some s) :
    Inv a lib s := by
  have hstep : ∀ (s : Program α) (e : Step) (s' : Program α), Inv a lib s → True →
      s.step a lib e = some s' → Inv a lib s' :=
    fun _ _ _ h _ hstep => inv_step hfits hfuel h hstep
  exact Network.run_invariant hstep (inv_init a lib) (Network.meets_true _ _) hrun

/-- A worker keeps the segments of the others, and `main_node` changes nothing while it waits. -/
theorem endedSorted_step (hfits : a.Fits) (hfuel : 128 < lib.fuel ∧ a.segmentSize < lib.fuel)
    (hinv : Inv a lib s) (h : EndedSorted a s) {e : Step} (hok : afterFill s e = true)
    (hstep : s.step a lib e = some s') : EndedSorted a s' := by
  obtain ⟨hfill, hended⟩ := h
  cases e with
  | mainNode =>
    by_cases hpc : s.main = .leave
    · simp only [Program.step, hpc] at hstep
      cases hstep
    obtain ⟨s₁, hs₁, -, hmain, hsame, htab⟩ := step_mainNode hfits hfuel.1 hinv hpc
    obtain rfl := Option.some.inj (hs₁.symm.trans hstep)
    refine ⟨fun hpc' => absurd (hmain.symm.trans hpc') (MainPc.next_ne_fill _ _), ?_⟩
    rw [hsame]
    intro k hk
    refine ⟨(hended k hk).1, fun hpc' => ?_⟩
    rcases MainPc.eq_of_next_eq_poll (hmain.symm.trans hpc') with hpc | hpc
    · rw [hfill hpc] at hk
      cases hk
    · rw [htab hpc]
      exact (hended k hk).2 hpc
  | workerNode nodeId =>
    obtain ⟨⟨hpos, hle, hnew⟩, hstep⟩ := Option.ite_none_right_eq_some.mp hstep
    obtain ⟨tab', heq, -, hsorted, hothers, -⟩ :=
      workerNode_eq hfits hfuel.2 hinv.tab.length hpos hle
    rw [heq] at hstep
    obtain rfl := Option.some.inj hstep
    refine ⟨fun hpc => absurd hpc (by simpa [afterFill] using hok), ?_⟩
    intro k hk
    rcases List.mem_cons.mp hk with rfl | hk
    · exact ⟨hpos, fun _ => hsorted⟩
    · obtain ⟨hkpos, hseg⟩ := hended k hk
      refine ⟨hkpos, fun hpc => ?_⟩
      have hne : k - 1 ≠ nodeId - 1 := by
        intro heq
        have hk' : k = nodeId := by omega
        exact hnew (hk' ▸ hk)
      show (segment tab' a.segmentSize (k - 1)).Pairwise (· ≤ ·)
      rw [hothers _ hne]
      exact hseg hpc

theorem endedSorted_run (hfits : a.Fits) (hfuel : 128 < lib.fuel ∧ a.segmentSize < lib.fuel)
    {es : List Step} (hrun : Network.run (Program.step a lib) (Program.init a) es = some s)
    (hok : Network.Meets (Program.step a lib) (fun s e => afterFill s e = true) (Program.init a)
      es) : Inv a lib s ∧ EndedSorted a s :=
  Network.run_invariant (P := fun s => Inv a lib s ∧ EndedSorted a s)
    (fun _ _ _ h hok hstep => ⟨inv_step hfits hfuel h.1 hstep,
      endedSorted_step hfits hfuel h.1 h.2 hok hstep⟩)
    ⟨inv_init a lib, by simp [EndedSorted, Program.init]⟩ hok hrun

/-- `main_node` needs three more regions when all segments are in order. -/
theorem run_mainNode (hfits : a.Fits) (hfuel : 128 < lib.fuel) (h : Inv a lib s)
    (hpc : s.main = .poll) (hsorted : SegmentsSorted a s.tab) :
    ∃ s', Network.run (Program.step a lib) s [.mainNode, .mainNode, .mainNode] = some s' ∧
      s'.main = .leave ∧ Inv a lib s' := by
  obtain ⟨s₁, hs₁, hinv₁, hmain₁, -⟩ := step_mainNode hfits hfuel h (by simp [hpc])
  have hmerge : s₁.main = .merge := by simp [hmain₁, hpc, MainPc.next, hsorted]
  obtain ⟨s₂, hs₂, hinv₂, hmain₂, -⟩ := step_mainNode hfits hfuel hinv₁ (by simp [hmerge])
  have hcheck : s₂.main = .check := by simp [hmain₂, hmerge, MainPc.next]
  obtain ⟨s₃, hs₃, hinv₃, hmain₃, -⟩ := step_mainNode hfits hfuel hinv₂ (by simp [hcheck])
  refine ⟨s₃, ?_, by simp [hmain₃, hcheck, MainPc.next], hinv₃⟩
  simp [Network.run, hs₁, hs₂, hs₃]

/-- The parallel sort, in any order of the regions of all nodes: nothing is undefined and no error
is logged, and when `main_node` has merged the segments, the array is and stays in order and has the
elements it was filled with. These are 128 values of `rand` and zeros, as the index of the loop is a
`char`. -/
theorem parallelSort {argc : ℕ} {port number size : BitVec 32}
    (hargs : mainArgs argc port number size = .ok a) (hsize : 0 < size.toInt)
    (hlt : a.tabSize < 2 ^ 31) (hfuel : 128 < lib.fuel ∧ a.segmentSize < lib.fuel) {es : List Step}
    (hrun : Network.run (Program.step a lib) (Program.init a) es = some s) :
    s.log = [] ∧ (s.main ≠ .fill → s.tab.Perm (filled a lib)) ∧
      (s.main = .check ∨ s.main = .leave → s.tab.Pairwise (· ≤ ·)) ∧
      (s.main ≠ .leave → (s.step a lib .mainNode).isSome) ∧
      ∀ nodeId, 1 ≤ nodeId → nodeId ≤ a.workerCount → nodeId ∉ s.ended →
        (s.step a lib (.workerNode nodeId)).isSome := by
  have hfits := fits_of_mainArgs hargs hsize hlt
  have h := inv_run hfits hfuel hrun
  refine ⟨h.log, fun hpc => h.tab.perm hpc, fun hpc => ?_, fun hpc => ?_,
    fun nodeId hpos hle hnew => ?_⟩
  · have htab := h.tab
    rcases hpc with hmain | hmain <;> rw [hmain] at htab <;> exact htab.2
  · obtain ⟨s', hs', -⟩ := step_mainNode hfits hfuel.1 h hpc
    exact Option.isSome_iff_exists.mpr ⟨s', hs'⟩
  · obtain ⟨s', hs', -⟩ := step_workerNode hfits hfuel.2 h ⟨hpos, hle, hnew⟩
    exact Option.isSome_iff_exists.mpr ⟨s', hs'⟩

/-- When the workers have come after the array was filled and have all ended, `main_node` leaves its
loop the next time, merges the segments and finds the array in order. -/
theorem parallelSort_ends {argc : ℕ} {port number size : BitVec 32}
    (hargs : mainArgs argc port number size = .ok a) (hsize : 0 < size.toInt)
    (hlt : a.tabSize < 2 ^ 31) (hfuel : 128 < lib.fuel ∧ a.segmentSize < lib.fuel) {es : List Step}
    (hrun : Network.run (Program.step a lib) (Program.init a) es = some s)
    (hok : Network.Meets (Program.step a lib) (fun s e => afterFill s e = true) (Program.init a) es)
    (hended : ∀ nodeId, 1 ≤ nodeId → nodeId ≤ a.workerCount → nodeId ∈ s.ended)
    (hpoll : s.main = .poll) :
    ∃ s', Network.run (Program.step a lib) s [.mainNode, .mainNode, .mainNode] = some s' ∧
      s'.main = .leave ∧ s'.log = [] ∧ s'.tab.Perm (filled a lib) ∧ s'.tab.Pairwise (· ≤ ·) := by
  have hfits := fits_of_mainArgs hargs hsize hlt
  obtain ⟨h, hsorted⟩ := endedSorted_run hfits hfuel hrun hok
  have hsegments : SegmentsSorted a s.tab := by
    intro k hk
    exact (hsorted.2 (k + 1) (hended (k + 1) (by omega) (by omega))).2 hpoll
  obtain ⟨s', hrun', hmain, hinv⟩ := run_mainNode hfits hfuel.1 h hpoll hsegments
  have htab := hinv.tab
  rw [hmain] at htab
  exact ⟨s', hrun', hmain, hinv.log, htab⟩

end Run

/-! ## Two workers -/

/-- Two workers, each with a segment of one page. -/
def twoWorkers : Args := ⟨2, 8192, by decide, by decide⟩

def descendingLib : CLib ℤ := ⟨fun k => -k, fun _ => 0, 5000⟩

theorem run_twoWorkers :
    ∃ s, Network.run (Program.step twoWorkers descendingLib) (Program.init twoWorkers)
        [.mainNode, .workerNode 2, .workerNode 1] = some s ∧
      Network.Meets (Program.step twoWorkers descendingLib) (fun s e => afterFill s e = true)
        (Program.init twoWorkers) [.mainNode, .workerNode 2, .workerNode 1] ∧
      s.main = .poll ∧ s.ended = [1, 2] := by
  have hfits : twoWorkers.Fits := ⟨by decide, by decide, by decide⟩
  have hinit : Inv twoWorkers descendingLib (Program.init twoWorkers) := inv_init _ _
  obtain ⟨s₁, hs₁, hinv₁, hmain₁, hended₁, -⟩ := step_mainNode hfits (by decide) hinit (by decide)
  have hpoll : s₁.main = .poll := hmain₁
  have hid₂ : 1 ≤ 2 ∧ 2 ≤ twoWorkers.workerCount ∧ 2 ∉ s₁.ended := by
    rw [hended₁]
    decide
  obtain ⟨s₂, hs₂, hinv₂, hmain₂, hended₂⟩ := step_workerNode hfits (by decide) hinv₁ hid₂
  rw [hended₁] at hended₂
  have hid₁ : 1 ≤ 1 ∧ 1 ≤ twoWorkers.workerCount ∧ 1 ∉ s₂.ended := by
    rw [hended₂]
    decide
  obtain ⟨s₃, hs₃, -, hmain₃, hended₃⟩ := step_workerNode hfits (by decide) hinv₂ hid₁
  rw [hended₂] at hended₃
  refine ⟨s₃, by simp [Network.run, hs₁, hs₂, hs₃], ?_, by rw [hmain₃, hmain₂, hpoll], hended₃⟩
  simp [Network.Meets, hs₁, hs₂, afterFill, hmain₂, hpoll]

theorem mainArgs_twoWorkers : mainArgs 4 8080 2 1 = .ok twoWorkers := rfl

theorem parallelSort_twoWorkers :
    ∃ s, Network.run (Program.step twoWorkers descendingLib) (Program.init twoWorkers)
        [.mainNode, .workerNode 2, .workerNode 1] = some s ∧ s.log = [] ∧
      s.tab.Perm (filled twoWorkers descendingLib) := by
  obtain ⟨s, hrun, -, hmain, -⟩ := run_twoWorkers
  obtain ⟨hlog, hperm, -⟩ :=
    parallelSort mainArgs_twoWorkers (by decide) (by decide) (by decide) hrun
  exact ⟨s, hrun, hlog, hperm (by simp [hmain])⟩

theorem parallelSort_ends_twoWorkers :
    ∃ s, Network.run (Program.step twoWorkers descendingLib) (Program.init twoWorkers)
        [.mainNode, .workerNode 2, .workerNode 1, .mainNode, .mainNode, .mainNode] = some s ∧
      s.main = .leave ∧ s.log = [] ∧ s.tab.Perm (filled twoWorkers descendingLib) ∧
      s.tab.Pairwise (· ≤ ·) := by
  obtain ⟨s, hrun, hok, hmain, hended⟩ := run_twoWorkers
  have hall : ∀ nodeId, 1 ≤ nodeId → nodeId ≤ twoWorkers.workerCount → nodeId ∈ s.ended := by
    intro nodeId hpos hle
    have hcount : nodeId ≤ 2 := hle
    have hid : nodeId = 1 ∨ nodeId = 2 := by omega
    simpa [hended] using hid
  obtain ⟨s', hrun', h⟩ := parallelSort_ends mainArgs_twoWorkers (by decide) (by decide)
    (by decide) hrun hok hall hmain
  refine ⟨s', ?_, h⟩
  have happend : Network.run (Program.step twoWorkers descendingLib) (Program.init twoWorkers)
      ([.mainNode, .workerNode 2, .workerNode 1] ++ [.mainNode, .mainNode, .mainNode]) = some s' := by
    rw [Network.run_append, hrun]
    exact hrun'
  exact happend

end Sorting
