import Psar.Dsm.Size
import Psar.Dsm.Proofs.RegionProofs

/-!
# Proofs: the size of the shared memory

Up to `2 ^ 32 - 4096` bytes no computation is truncated. Above that, the length that is mapped is
smaller than the size, or is 0; where it is smaller than `nb_pages` pages, the loop of
`init_sigsegv` leaves the mapping.
-/

namespace Dsm

/-- The length is computed modulo `2 ^ 32`. -/
theorem toNat_length (n : BitVec 32) : (length n).toNat = n.toNat * pageSize % 2 ^ 32 := by
  unfold length
  rw [BitVec.toNat_setWidth, BitVec.toNat_mul]
  have hmod : n.toNat * (BitVec.ofNat 32 pageSize).toNat % 2 ^ 32 < 2 ^ 32 :=
    Nat.mod_lt _ (by decide)
  rw [Nat.mod_eq_of_lt (Nat.lt_of_lt_of_le hmod (by decide))]
  rfl

/-- The length is a number of pages, so nothing is added to it. -/
theorem mapped_length (n : BitVec 32) : mapped (length n) = (length n).toNat := by
  unfold mapped
  rw [toNat_length]
  unfold pageSize
  omega

/-- Without truncation, the number of pages is the size rounded up. -/
theorem toNat_nbPages {size : BitVec 64} (h : size.toNat ≤ 2 ^ 32 - pageSize) :
    (nbPages size).toNat = (size.toNat + pageSize - 1) / pageSize := by
  unfold pageSize at h
  have hsum : (size + BitVec.ofNat 64 4096 - 1).toNat = size.toNat + 4096 - 1 := by
    bv_omega
  have hpage : (BitVec.ofNat 64 4096).toNat = 4096 := rfl
  unfold nbPages pageSize
  rw [BitVec.toNat_setWidth, BitVec.toNat_udiv, hsum, hpage]
  omega

/-- The address of an offset that lies in the mapping. -/
theorem toNat_add_offset {dsm offset : BitVec 64} {len : ℕ} (hfits : dsm.toNat + len < 2 ^ 64)
    (h : offset.toNat < len) : (dsm + offset).toNat = dsm.toNat + offset.toNat := by
  rw [BitVec.toNat_add]
  omega

/-! ## The loop of `init_sigsegv` -/

section Kernel

variable {k : Kernel} {size dsm : BitVec 64} {m : Memory}

/-- The address of a page of the mapping. -/
theorem toNat_pageAddress {len : ℕ} (hfits : dsm.toNat + len < 2 ^ 64) {i : ℕ}
    (hi : i * pageSize ≤ len) :
    (dsm + BitVec.ofNat 64 i * BitVec.ofNat 64 pageSize).toNat = dsm.toNat + i * pageSize := by
  have hpage : (BitVec.ofNat 64 pageSize).toNat = pageSize := rfl
  have hindex : (BitVec.ofNat 64 i).toNat = i := by
    rw [BitVec.toNat_ofNat]
    unfold pageSize at hi
    omega
  have hoffset : (BitVec.ofNat 64 i * BitVec.ofNat 64 pageSize).toNat = i * pageSize := by
    rw [BitVec.toNat_mul, hindex, hpage]
    omega
  rw [BitVec.toNat_add, hoffset]
  omega

/-- What has succeeded when `Init_DSM` returns. -/
theorem initDSM_eq_returned (h : initDSM k size = .returned m) :
    ∃ dsm, m = ⟨dsm, nbPages size⟩ ∧ k.mmap (length (nbPages size)) = some dsm ∧
      initSigsegv k dsm (length (nbPages size)) ((nbPages size).setWidth 64) = true := by
  unfold initDSM at h
  dsimp only at h
  split at h
  · cases h
  · rename_i dsm hdsm
    split_ifs at h with hprotect
    cases h
    exact ⟨dsm, rfl, hdsm, hprotect⟩

/-- `init_sigsegv` returns if the assertions hold and every page can be protected. -/
theorem initSigsegv_eq_true {len : BitVec 64} {n : BitVec 32} :
    initSigsegv k dsm len (n.setWidth 64) = true ↔
      dsm ≠ 0 ∧ n.toNat ≠ 0 ∧ ∀ i < n.toNat, memoryProtect k dsm len (BitVec.ofNat 64 i) = true := by
  have hnat : (n.setWidth 64).toNat = n.toNat := by
    rw [BitVec.toNat_setWidth]
    omega
  have hzero : n.setWidth 64 ≠ 0 ↔ n.toNat ≠ 0 := by
    rw [← hnat, ne_eq, ← BitVec.toNat_inj]
    rfl
  simp only [initSigsegv, Bool.and_eq_true, decide_eq_true_eq, List.all_eq_true, List.mem_range,
    hnat, hzero, and_assoc]

/-- Where the length has wrapped around, the loop reaches the page behind the mapping. -/
theorem lt_of_protected {n : BitVec 32} (hfits : dsm.toNat + (length n).toNat < 2 ^ 64)
    (hbehind : k.mprotect dsm (length n) (dsm + length n) = false)
    (hall : ∀ i < n.toNat, memoryProtect k dsm (length n) (BitVec.ofNat 64 i) = true) :
    n.toNat * pageSize < 2 ^ 32 := by
  by_contra hwrap
  have hlen := toNat_length n
  have hpages : (length n).toNat = (length n).toNat / pageSize * pageSize ∧
      (length n).toNat / pageSize < n.toNat := by
    rw [hlen]
    unfold pageSize at hwrap ⊢
    omega
  have haddress : dsm + BitVec.ofNat 64 ((length n).toNat / pageSize) * BitVec.ofNat 64 pageSize =
      dsm + length n := by
    apply BitVec.eq_of_toNat_eq
    rw [toNat_pageAddress hfits hpages.1.ge, ← hpages.1, BitVec.toNat_add, Nat.mod_eq_of_lt hfits]
  have hlast := hall _ hpages.2
  unfold memoryProtect at hlast
  rw [haddress, hbehind] at hlast
  cases hlast

/-- Where the length has not wrapped around, the loop stays inside the mapping. -/
theorem memoryProtect_of_lt (hk : k.Lawful) {n : BitVec 32} (hmmap : k.mmap (length n) = some dsm)
    (hlt : n.toNat * pageSize < 2 ^ 32) {i : ℕ} (hi : i < n.toNat) :
    memoryProtect k dsm (length n) (BitVec.ofNat 64 i) = true := by
  have hfits := hk.fits _ _ hmmap
  have hpage : i * pageSize + pageSize ≤ (length n).toNat := by
    rw [toNat_length, Nat.mod_eq_of_lt hlt]
    unfold pageSize
    omega
  have haddress := toNat_pageAddress (mapped_length n ▸ hfits) (Nat.le_of_add_right_le hpage)
  apply hk.protect _ _ _ hmmap
  · rw [haddress]
    omega
  · rw [haddress, mapped_length]
    omega

/-- Where the page behind the mapping is not mapped, `Init_DSM` goes through the loop of
`init_sigsegv` if and only if the length has not wrapped around. -/
theorem initDSM_returns_iff (hk : k.Lawful) (hmmap : k.mmap (length (nbPages size)) = some dsm)
    (hdsm : dsm ≠ 0)
    (hbehind : k.mprotect dsm (length (nbPages size)) (dsm + length (nbPages size)) = false) :
    initDSM k size = .returned ⟨dsm, nbPages size⟩ ↔
      (nbPages size).toNat * pageSize < 2 ^ 32 := by
  constructor
  · intro h
    obtain ⟨dsm', hm, -, hloop⟩ := initDSM_eq_returned h
    cases hm
    have hfits := hk.fits _ _ hmmap
    rw [mapped_length] at hfits
    exact lt_of_protected hfits hbehind (initSigsegv_eq_true.mp hloop).2.2
  · intro hlt
    have hne : (nbPages size).toNat ≠ 0 := by
      intro hzero
      have hlen : length (nbPages size) = 0 := by
        apply BitVec.eq_of_toNat_eq
        rw [toNat_length, hzero]
        rfl
      rw [hlen, hk.zero] at hmmap
      cases hmmap
    have hloop := initSigsegv_eq_true.mpr
      ⟨hdsm, hne, fun _ hi => memoryProtect_of_lt hk hmmap hlt hi⟩
    simp only [initDSM, hmmap, hloop, if_true]

/-- For every positive size for which `Init_DSM` succeeds, the memory has room for the size if and
only if the size is at most `2 ^ 32 - 4096`. -/
theorem initDSM_hasRoom_iff (hk : k.Lawful) (hsize : 0 < size.toNat)
    (hm : initDSM k size = .returned m) : m.HasRoom size ↔ size.toNat ≤ 2 ^ 32 - pageSize := by
  obtain ⟨dsm, rfl, hdsm, -⟩ := initDSM_eq_returned hm
  have hfits := hk.fits _ _ hdsm
  rw [mapped_length] at hfits
  constructor
  · rintro ⟨hroom, -⟩
    rw [mapped_length, toNat_length] at hroom
    unfold pageSize at hroom ⊢
    omega
  · intro hle
    have hpages := toNat_nbPages hle
    have hlen := toNat_length (nbPages size)
    rw [hpages] at hlen
    unfold pageSize at hle hlen hpages
    have hcover : size.toNat ≤ (length (nbPages size)).toNat := by
      rw [hlen]
      omega
    refine ⟨?_, ?_⟩
    · rw [mapped_length]
      exact hcover
    · intro offset hoffset
      have hlt : offset.toNat < size.toNat := hoffset
      have hadd := toNat_add_offset hfits (Nat.lt_of_lt_of_le hlt hcover)
      constructor
      · show (getPageIndex dsm (dsm + offset)).toNat < _
        rw [toNat_getPageIndex (by omega), hadd, BitVec.toNat_setWidth, hpages]
        unfold pageSize
        omega
      · have hend : (dsm + length (nbPages size)).toNat =
            dsm.toNat + (length (nbPages size)).toNat := by
          rw [BitVec.toNat_add]
          omega
        simp only [Memory.isValidAddress, BitVec.le_def, BitVec.lt_def, decide_eq_true_eq, hadd,
          hend]
        omega

end Kernel

/-! ## Three sizes -/

/-- A kernel that maps lengths up to `2 ^ 32` at one address, and nothing else. -/
def lowKernel : Kernel where
  mmap := fun len => if len = 0 ∨ 2 ^ 32 < len.toNat then none else some 0x7f0000000000
  mprotect := fun dsm len addr =>
    dsm.toNat ≤ addr.toNat && addr.toNat + pageSize ≤ dsm.toNat + mapped len

theorem lowKernel_lawful : lowKernel.Lawful where
  zero := rfl
  fits := by
    intro len dsm h
    simp only [lowKernel] at h
    split at h
    · cases h
    · rename_i hlen
      cases h
      have hle : len.toNat ≤ 2 ^ 32 := by
        by_contra hgt
        exact hlen (Or.inr (by omega))
      have hbase : (0x7f0000000000 : BitVec 64).toNat = 0x7f0000000000 := rfl
      unfold mapped pageSize
      omega
  protect := by
    intro len dsm addr _ hstart hend
    simp [lowKernel, hstart, hend]

theorem initDSM_hasRoom_iff_twoPages :
    ∃ m, initDSM lowKernel 5000 = .returned m ∧ m.HasRoom 5000 :=
  ⟨_, rfl, (initDSM_hasRoom_iff lowKernel_lawful (by decide) rfl).mpr (by decide)⟩

/-- For `2 ^ 44 + 4096` bytes `nb_pages` is 1, and `Init_DSM` returns with one page. -/
theorem initDSM_truncated :
    lowKernel.Lawful ∧ ∃ m, initDSM lowKernel (2 ^ 44 + 4096) = .returned m ∧
      mapped (length m.nbPages) = 4096 ∧ ¬ m.HasRoom (2 ^ 44 + 4096) := by
  refine ⟨lowKernel_lawful, _, rfl, by decide, ?_⟩
  rintro ⟨hroom, -⟩
  exact absurd hroom (by decide)

end Dsm
