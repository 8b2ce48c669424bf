import Psar.Dsm.Region

/-!
# Proofs: regions and pages

The loop of `exclude_others` covers a region that is not empty. The end of an empty region lies
before its start, which is the page before only if the region starts at a page edge other than the
first one.
-/

namespace Dsm

variable {dsm adr s : BitVec 64} {nbPages : ℕ}

/-- Above `dsm`, the index of an address is its distance in pages. -/
theorem toNat_getPageIndex (h : dsm.toNat ≤ adr.toNat) :
    (getPageIndex dsm adr).toNat = (adr.toNat - dsm.toNat) / pageSize := by
  have hsub : (adr - dsm).toNat = adr.toNat - dsm.toNat := by
    rw [BitVec.toNat_sub]
    have h1 := adr.isLt
    omega
  unfold getPageIndex
  rw [BitVec.toNat_udiv, hsub]
  rfl

/-- The index of the address before `dsm`, which wraps around. -/
theorem toNat_getPageIndex_before : (getPageIndex dsm (dsm + 0 - 1)).toNat = 2 ^ 52 - 1 := by
  have hsub : (dsm + 0 - 1 - dsm).toNat = 2 ^ 64 - 1 := by
    bv_omega
  unfold getPageIndex
  rw [BitVec.toNat_udiv, hsub]
  rfl

theorem callsOn_injective {l l' : List ℕ} (h : callsOn l = callsOn l') : l = l' := by
  induction l generalizing l' with
  | nil =>
    cases l' with
    | nil => rfl
    | cons b l' => simp [callsOn] at h
  | cons a l ih =>
    cases l' with
    | nil => simp [callsOn] at h
    | cons b l' =>
      simp only [callsOn, List.flatMap_cons, List.cons_append, List.nil_append, List.cons.injEq,
        Call.memoryLock.injEq] at h
      rw [h.1, ih h.2.2]

/-- Whatever the pages are, the loop goes through them in order. -/
theorem covers_iff (h : InDsm dsm nbPages adr s) :
    Covers dsm nbPages adr s (excludeOthers dsm adr s) ↔
      ∀ page, page ∈ regionPages dsm adr s ↔ Touches dsm adr s page := by
  constructor
  · rintro ⟨pages, hcalls, -, hmem, -⟩
    rw [callsOn_injective hcalls]
    exact hmem
  · intro hmem
    refine ⟨_, rfl, List.pairwise_lt_range', hmem, ?_⟩
    intro page hpage
    obtain ⟨b, hb1, hb2, rfl⟩ := (hmem page).mp hpage
    have h1 := h.start
    have h2 := h.stop
    unfold pageSize at h2 ⊢
    omega

theorem mem_regionPages {page : ℕ} :
    page ∈ regionPages dsm adr s ↔ (getPageIndex dsm adr).toNat ≤ page ∧
      page ≤ (getPageIndex dsm (adr + s - 1)).toNat := by
  unfold regionPages
  rw [List.mem_range'_1]
  omega

/-- A page between the first and the last one contains a byte. -/
theorem touches_iff (hstart : dsm.toNat ≤ adr.toNat) (hs : 0 < s.toNat) {page : ℕ} :
    Touches dsm adr s page ↔ (adr.toNat - dsm.toNat) / pageSize ≤ page ∧
      page ≤ (adr.toNat + s.toNat - 1 - dsm.toNat) / pageSize := by
  unfold Touches pageSize
  constructor
  · rintro ⟨b, hb1, hb2, rfl⟩
    omega
  · rintro ⟨h1, h2⟩
    -- the first byte of the page, or of the region if that is later
    refine ⟨max adr.toNat (dsm.toNat + page * 4096), ?_, ?_, ?_⟩ <;> omega

/-- The last byte of a region that is not empty. -/
theorem toNat_last (h : InDsm dsm nbPages adr s) (hs : 0 < s.toNat) :
    (adr + s - 1).toNat = adr.toNat + s.toNat - 1 := by
  have h1 := h.memory
  have h2 := h.stop
  bv_omega

/-- For a region that is not empty, the loop goes through the pages that contain a byte. -/
theorem mem_regionPages_iff_touches (h : InDsm dsm nbPages adr s) (hs : s ≠ 0) {page : ℕ} :
    page ∈ regionPages dsm adr s ↔ Touches dsm adr s page := by
  have hstart := h.start
  have hpos : 0 < s.toNat := by
    rcases Nat.eq_zero_or_pos s.toNat with h0 | hpos
    · exact absurd (BitVec.eq_of_toNat_eq h0) hs
    · exact hpos
  have hlast := toNat_last h hpos
  rw [mem_regionPages, touches_iff hstart hpos, toNat_getPageIndex hstart,
    toNat_getPageIndex (by omega), hlast]

/-- `exclude_others` calls `memory_lock` and `exc_func` on exactly the pages of the region if and
only if the region is not empty, or starts at a page edge other than the first one. -/
theorem excludeOthers_covers_iff (h : InDsm dsm nbPages adr s) :
    Covers dsm nbPages adr s (excludeOthers dsm adr s) ↔
      s ≠ 0 ∨ (adr ≠ dsm ∧ (adr.toNat - dsm.toNat) % pageSize = 0) := by
  rw [covers_iff h]
  have hstart := h.start
  by_cases hs : s = 0
  · subst hs
    have hnone : ∀ page, ¬ Touches dsm adr 0 page := by
      rintro page ⟨b, hb1, hb2, -⟩
      simp at hb2
      omega
    simp only [ne_eq, not_true, false_or, hnone, iff_false]
    by_cases hadr : adr = dsm
    · -- the loop runs far beyond the last page
      subst hadr
      constructor
      · intro hempty
        refine absurd ?_ (hempty 0)
        rw [mem_regionPages, toNat_getPageIndex_before, toNat_getPageIndex hstart]
        simp
      · rintro ⟨hne, -⟩
        exact absurd rfl hne
    · have hlt : dsm.toNat < adr.toNat := by
        rcases Nat.lt_or_eq_of_le hstart with hlt | heq
        · exact hlt
        · exact absurd (BitVec.eq_of_toNat_eq heq.symm) hadr
      have hlast : (adr + 0 - 1).toNat = adr.toNat - 1 := by bv_omega
      have hend : (getPageIndex dsm (adr + 0 - 1)).toNat =
          (adr.toNat - 1 - dsm.toNat) / pageSize := by
        rw [toNat_getPageIndex (by omega), hlast]
      constructor
      · intro hempty
        refine ⟨hadr, ?_⟩
        have hfirst := hempty ((adr.toNat - dsm.toNat) / pageSize)
        rw [mem_regionPages, toNat_getPageIndex hstart, hend] at hfirst
        unfold pageSize at hfirst ⊢
        omega
      · rintro ⟨-, hedge⟩ page hpage
        rw [mem_regionPages, toNat_getPageIndex hstart, hend] at hpage
        unfold pageSize at hpage hedge
        omega
  · exact iff_of_true (fun page => mem_regionPages_iff_touches h hs) (Or.inl hs)

/-- A region of five thousand bytes. -/
theorem excludeOthers_covers_iff_region :
    Covers 0x10000 3 0x10001 5000 (excludeOthers 0x10000 0x10001 5000) :=
  (excludeOthers_covers_iff ⟨by decide, by decide, by decide⟩).mpr (Or.inl (by decide))

/-- The empty region in the middle of a page: the loop calls both functions on that page. -/
theorem excludeOthers_empty :
    InDsm 0x10000 3 0x10001 0 ∧
      excludeOthers 0x10000 0x10001 0 = [.memoryLock 0, .excFunc 0] ∧
      ¬ Covers 0x10000 3 0x10001 0 (excludeOthers 0x10000 0x10001 0) := by
  have hin : InDsm 0x10000 3 0x10001 0 := ⟨by decide, by decide, by decide⟩
  refine ⟨hin, by decide, ?_⟩
  rw [covers_iff hin]
  intro hmem
  obtain ⟨b, hb1, hb2, -⟩ := (hmem 0).mp (by decide)
  simp at hb1 hb2
  omega

end Dsm
