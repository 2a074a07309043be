import Mathlib.Algebra.BigOperators.Intervals
import Mathlib.Algebra.Order.BigOperators.Group.Finset
import OpenExt4.Balloc.Geometry
import OpenExt4.Bridge.Probe

set_option autoImplicit false

/-! # The gate and the allocator

The group arithmetic of `ext4_super.c` on the superblock as it is stored, and for which superblocks
the probe accepts it is right. A superblock `Sb` of the allocator's model is one the probe accepted
(`Sb.ofGate`). -/

namespace Ext4

open Ext4b Finset

/-! ## Counting groups -/

section Counting

variable {n b : ℕ}

/-- Rounding up is rounding down, and one more for a remainder. -/
theorem div_add_rem (hb : 0 < b) : n / b + (if n % b ≠ 0 then 1 else 0) = (n + b - 1) / b := by
  have hdiv := Nat.div_add_mod n b
  have hmod := Nat.mod_lt n hb
  generalize n / b = q at *
  generalize n % b = r at *
  subst hdiv
  by_cases hr : r = 0
  · have hsum : b * q + r + b - 1 = b * q + (b - 1) := by omega
    rw [hsum, Nat.mul_add_div hb, Nat.div_eq_of_lt (by omega)]
    simp [hr]
  · have hsum : b * q + r + b - 1 = b * (q + 1) + (r - 1) := by
      rw [Nat.mul_add, Nat.mul_one]
      omega
    rw [hsum, Nat.mul_add_div hb, Nat.div_eq_of_lt (by omega)]
    simp [hr]

/-- The groups cover the blocks, and the last one is needed. -/
theorem roundUp_bounds (hb : 0 < b) :
    n ≤ (n + b - 1) / b * b ∧ (n + b - 1) / b * b < n + b := by
  have hdiv := Nat.div_add_mod (n + b - 1) b
  have hmod := Nat.mod_lt (n + b - 1) hb
  rw [Nat.mul_comm] at hdiv
  omega

theorem roundUp_pred (hb : 0 < b) (hn : 0 < n) : (n + b - 1) / b - 1 = (n - 1) / b := by
  have hsum : n + b - 1 = n - 1 + b := by omega
  rw [hsum, Nat.add_div_right _ hb, Nat.succ_sub_one]

/-- What the source computes for the last group, from a start that is not cut off. -/
theorem sub_cut {p k : ℕ} (hp : p < 2 ^ 32) (hlt : p < n) (hle : n ≤ p + b) (hb : b < 2 ^ 32) :
    (n + k * 2 ^ 32 + 2 ^ 64 - p % 2 ^ 32) % 2 ^ 32 = n - p := by
  have hsum : n + k * 2 ^ 32 + 2 ^ 64 - p = n - p + (k + 2 ^ 32) * 2 ^ 32 := by omega
  rw [Nat.mod_eq_of_lt hp, hsum, Nat.add_mul_mod_self_right, Nat.mod_eq_of_lt (by omega)]

/-- A sum whose summands but the last are all the same. -/
theorem sum_all_but_last {f : ℕ → ℕ} {c a : ℕ} (hc : 0 < c) (hf : ∀ g < c - 1, f g = a) :
    ∑ g ∈ range c, f g = (c - 1) * a + f (c - 1) := by
  obtain ⟨m, rfl⟩ : ∃ m, c = m + 1 := ⟨c - 1, by omega⟩
  simp only [Nat.add_sub_cancel] at hf ⊢
  rw [sum_range_succ, sum_const_nat fun g hg => hf g (mem_range.mp hg), card_range]

end Counting

/-! ## The group arithmetic of the source -/

/-- `uint32_t` subtraction and multiplication. -/
def sub32 (a b : ℕ) : ℕ := (a + 2 ^ 32 - b) % 2 ^ 32

def mul32 (a b : ℕ) : ℕ := a * b % 2 ^ 32

namespace OnMedium

section Source

variable (s : Sblock)

/-- `ext4_sb_get_blocks_cnt`, which reads the high half on every volume. -/
def ext4SbGetBlocksCnt : ℕ := s.blocksCountHi * 2 ^ 32 + s.blocksCountLo

/-- `ext4_block_group_cnt`. -/
def ext4BlockGroupCnt : ℕ :=
  (ext4SbGetBlocksCnt s / s.blocksPerGroup % 2 ^ 32
    + if ext4SbGetBlocksCnt s % s.blocksPerGroup ≠ 0 then 1 else 0) % 2 ^ 32

/-- `ext4_blocks_in_group_cnt`. -/
def ext4BlocksInGroupCnt (bgid : ℕ) : ℕ :=
  if bgid < sub32 (ext4BlockGroupCnt s) 1 then s.blocksPerGroup
  else (ext4SbGetBlocksCnt s + 2 ^ 64 - mul32 (sub32 (ext4BlockGroupCnt s) 1) s.blocksPerGroup)
    % 2 ^ 32

/-- `ext4_inodes_in_group_cnt`. -/
def ext4InodesInGroupCnt (bgid : ℕ) : ℕ :=
  if bgid < sub32 (ext4BlockGroupCnt s) 1 then s.inodesPerGroup
  else sub32 s.inodesCount (mul32 (sub32 (ext4BlockGroupCnt s) 1) s.inodesPerGroup)

/-- `ext4_fs_addr_to_idx_bg`. -/
def ext4FsAddrToIdxBg (baddr : ℕ) : ℕ :=
  (if s.firstDataBlock ≠ 0 ∧ baddr ≠ 0 then baddr - 1 else baddr) % s.blocksPerGroup

/-- `ext4_ialloc_inode_to_bgidx`. -/
def ext4IallocInodeToBgidx (inode : ℕ) : ℕ := sub32 inode 1 % s.inodesPerGroup

/-- `ext4_balloc_get_block_of_bgid`. -/
def ext4BallocGetBlockOfBgid (bgid : ℕ) : ℕ :=
  (if s.firstDataBlock ≠ 0 then 1 else 0) + mul32 bgid s.blocksPerGroup

/-- `ext4_fs_bg_idx_to_addr`. -/
def ext4FsBgIdxToAddr (index bgid : ℕ) : ℕ :=
  (mul32 s.blocksPerGroup bgid + if s.firstDataBlock ≠ 0 then index + 1 else index) % 2 ^ 32

/-- `ext4_ialloc_bgidx_to_inode`. -/
def ext4IallocBgidxToInode (index bgid : ℕ) : ℕ :=
  (mul32 bgid s.inodesPerGroup + (index + 1)) % 2 ^ 32

end Source

/-- The arithmetic of the allocator is right on the superblock: its group count is the one the probe
    validated, its group sizes add up to the volume, nothing goes below zero, every bit lies in a
    bitmap of one block, and no product is cut to 32 bits. -/
structure ArithmeticSound (s : Sblock) : Prop where
  group_count : ext4BlockGroupCnt s = s.probedGroups
  blocks_sum : ∑ g ∈ range (ext4BlockGroupCnt s), ext4BlocksInGroupCnt s g
    = s.blockCount - s.firstDataBlock
  blocks_bounds : ∀ g < ext4BlockGroupCnt s,
    1 ≤ ext4BlocksInGroupCnt s g ∧ ext4BlocksInGroupCnt s g ≤ s.blocksPerGroup
  inodes_sum : ∑ g ∈ range (ext4BlockGroupCnt s), ext4InodesInGroupCnt s g = s.inodesCount
  inodes_sub : (ext4BlockGroupCnt s - 1) * s.inodesPerGroup ≤ s.inodesCount
  block_index : ∀ baddr, ext4FsAddrToIdxBg s baddr < 8 * s.blockSize
  inode_index : ∀ inode, ext4IallocInodeToBgidx s inode < 8 * s.blockSize
  block_scan : ∀ g < ext4BlockGroupCnt s, ext4BlocksInGroupCnt s g ≤ 8 * s.blockSize
  inode_scan : ∀ g < ext4BlockGroupCnt s, ext4InodesInGroupCnt s g ≤ 8 * s.blockSize
  block_product : ∀ g < ext4BlockGroupCnt s, mul32 g s.blocksPerGroup = g * s.blocksPerGroup
  inode_product : ∀ g < ext4BlockGroupCnt s, mul32 g s.inodesPerGroup = g * s.inodesPerGroup

/-- There is no boot block to count, the high half of the block count is one the group count does
    not show, and the last group starts below `2 ^ 32`. -/
def ArithmeticFits (s : Sblock) : Prop :=
  s.firstDataBlock = 0 ∧
    (s.is64bit = true ∨ s.blocksCountHi % s.blocksPerGroup = 0) ∧
    (s.blockCount - 1) / s.blocksPerGroup * s.blocksPerGroup < 2 ^ 32

instance (s : Sblock) : Decidable (ArithmeticFits s) := inferInstanceAs (Decidable (_ ∧ _ ∧ _))

/-! ## When the arithmetic is right -/

section Gate

variable {s : Sblock}

theorem ext4BlockGroupCnt_onMedium (hpos : 0 < s.blocksPerGroup) :
    ext4BlockGroupCnt s
      = (ext4SbGetBlocksCnt s + s.blocksPerGroup - 1) / s.blocksPerGroup % 2 ^ 32 := by
  unfold ext4BlockGroupCnt
  rw [Nat.mod_add_mod, div_add_rem hpos]

/-- What the source reads as the block count: on a volume that counts in 32 bits it has a high half
    the probe does not see. -/
theorem ext4SbGetBlocksCnt_eq (s : Sblock) :
    ext4SbGetBlocksCnt s = s.blockCount + if s.is64bit then 0 else s.blocksCountHi * 2 ^ 32 := by
  unfold ext4SbGetBlocksCnt Sblock.blockCount
  split <;> omega

theorem sub32_one {c : ℕ} (hpos : 0 < c) (hlt : c < 2 ^ 32) : sub32 c 1 = c - 1 := by
  unfold sub32
  omega

/-- The group sizes add up to full groups and the remainder of the last. -/
theorem sum_blocksInGroup (hpos : 0 < ext4BlockGroupCnt s)
    (hlt : ext4BlockGroupCnt s < 2 ^ 32) :
    ∑ g ∈ range (ext4BlockGroupCnt s), ext4BlocksInGroupCnt s g
      = (ext4BlockGroupCnt s - 1) * s.blocksPerGroup
        + (ext4SbGetBlocksCnt s + 2 ^ 64
          - (ext4BlockGroupCnt s - 1) * s.blocksPerGroup % 2 ^ 32) % 2 ^ 32 := by
  unfold ext4BlocksInGroupCnt
  simp only [sub32_one hpos hlt]
  rw [sum_all_but_last hpos fun g hg => if_pos hg, if_neg (Nat.lt_irrefl _), mul32]

theorem sum_inodesInGroup (hpos : 0 < ext4BlockGroupCnt s)
    (hlt : ext4BlockGroupCnt s < 2 ^ 32) :
    ∑ g ∈ range (ext4BlockGroupCnt s), ext4InodesInGroupCnt s g
      = (ext4BlockGroupCnt s - 1) * s.inodesPerGroup
        + (s.inodesCount + 2 ^ 32
          - (ext4BlockGroupCnt s - 1) * s.inodesPerGroup % 2 ^ 32) % 2 ^ 32 := by
  unfold ext4InodesInGroupCnt
  simp only [sub32_one hpos hlt]
  rw [sum_all_but_last hpos fun g hg => if_pos hg, if_neg (Nat.lt_irrefl _), mul32, sub32]

/-- Where the group sizes add up, there is no boot block: the source never takes it off. -/
theorem ArithmeticSound.firstDataBlock (h : ArithmeticSound s) (hgate : Gate s) :
    s.firstDataBlock = 0 := by
  have hpos := hgate.probedGroups_pos
  have hlt := hgate.probedGroups_lt
  rw [← h.group_count] at hpos hlt
  have hsum := h.blocks_sum
  rw [sum_blocksInGroup hpos (by omega), ext4SbGetBlocksCnt_eq] at hsum
  have hfirst : s.firstDataBlock < 2 ^ 32 := rd32_lt _ _
  have hblocks := hgate.first_data_block_lt
  have hfits := hgate.fits_device
  generalize (ext4BlockGroupCnt s - 1) * s.blocksPerGroup = p at *
  split at hsum <;> omega

/-- Where the group counts agree, the high half the probe does not see is a multiple of the group
    size: the count of its groups is cut off. -/
theorem ArithmeticSound.blocksCountHi (h : ArithmeticSound s) (hgate : Gate s) :
    s.is64bit = true ∨ s.blocksCountHi % s.blocksPerGroup = 0 := by
  refine or_iff_not_imp_left.mpr fun h32 => ?_
  have hpos : 0 < s.blocksPerGroup := Nat.lt_of_lt_of_le (by decide) hgate.blocks_per_group_ge
  have hle := hgate.blocksPerGroup_lt
  have hcount := h.group_count
  rw [ext4BlockGroupCnt_onMedium hpos, Sblock.probedGroups, h.firstDataBlock hgate,
    Nat.sub_zero] at hcount
  have htotal := ext4SbGetBlocksCnt_eq s
  rw [if_neg h32] at htotal
  have hN := roundUp_bounds (n := s.blockCount) hpos
  have hT := roundUp_bounds (n := ext4SbGetBlocksCnt s) hpos
  have hsplit := Nat.div_add_mod
    ((ext4SbGetBlocksCnt s + s.blocksPerGroup - 1) / s.blocksPerGroup) (2 ^ 32)
  rw [hcount] at hsplit
  generalize (s.blockCount + s.blocksPerGroup - 1) / s.blocksPerGroup = c at *
  rw [← hsplit, Nat.add_mul] at hT
  generalize (ext4SbGetBlocksCnt s + s.blocksPerGroup - 1) / s.blocksPerGroup / 2 ^ 32 = k at *
  rw [Nat.mul_assoc] at hT
  have hmul : s.blocksCountHi = k * s.blocksPerGroup := by
    generalize c * s.blocksPerGroup = x at *
    generalize k * s.blocksPerGroup = y at *
    omega
  rw [hmul, Nat.mul_mod_left]

/-- The groups the source counts, where the condition holds. -/
theorem ArithmeticFits.group_count (h : ArithmeticFits s) (hgate : Gate s) :
    ext4BlockGroupCnt s = s.probedGroups ∧
      ∃ k, ext4SbGetBlocksCnt s = s.blockCount + k * s.blocksPerGroup * 2 ^ 32 := by
  obtain ⟨hfirst, hhi, -⟩ := h
  have hpos : 0 < s.blocksPerGroup := Nat.lt_of_lt_of_le (by decide) hgate.blocks_per_group_ge
  have hlt := hgate.probedGroups_lt
  have htotal : ∃ k, ext4SbGetBlocksCnt s = s.blockCount + k * s.blocksPerGroup * 2 ^ 32 := by
    have heq := ext4SbGetBlocksCnt_eq s
    by_cases h64 : s.is64bit = true
    · exact ⟨0, by simpa [h64] using heq⟩
    · obtain ⟨k, hk⟩ := Nat.dvd_of_mod_eq_zero (hhi.resolve_left h64)
      rw [if_neg h64, hk, Nat.mul_comm s.blocksPerGroup] at heq
      exact ⟨k, heq⟩
  refine ⟨?_, htotal⟩
  obtain ⟨k, htotal⟩ := htotal
  have hblocks := hgate.first_data_block_lt
  rw [ext4BlockGroupCnt_onMedium hpos, htotal]
  unfold Sblock.probedGroups at hlt ⊢
  rw [hfirst, Nat.sub_zero] at hlt ⊢
  have hsum : s.blockCount + k * s.blocksPerGroup * 2 ^ 32 + s.blocksPerGroup - 1
      = s.blockCount + s.blocksPerGroup - 1 + k * 2 ^ 32 * s.blocksPerGroup := by
    have hcomm : k * s.blocksPerGroup * 2 ^ 32 = k * 2 ^ 32 * s.blocksPerGroup :=
      Nat.mul_right_comm ..
    omega
  rw [hsum, Nat.add_mul_div_right _ _ hpos, Nat.add_mul_mod_self_right,
    Nat.mod_eq_of_lt (by omega)]

/-- **The gate suffices exactly for the volumes without a boot block whose block count both sides
    read alike and whose last group starts below `2 ^ 32`.** -/
theorem arithmeticSound_iff {dev : ProbeDevice} (haccepted : Accepted dev s) :
    ArithmeticSound s ↔ ArithmeticFits s := by
  have hgate := haccepted.gate
  have hpos : 0 < s.blocksPerGroup := Nat.lt_of_lt_of_le (by decide) hgate.blocks_per_group_ge
  have hgroups := hgate.probedGroups_pos
  have hlt := hgate.probedGroups_lt
  have hblocks := hgate.first_data_block_lt
  constructor
  · intro h
    have hfirst := h.firstDataBlock hgate
    refine ⟨hfirst, h.blocksCountHi hgate, ?_⟩
    have hproduct := h.block_product (ext4BlockGroupCnt s - 1) (by rw [h.group_count]; omega)
    rw [h.group_count, Sblock.probedGroups, hfirst, Nat.sub_zero, roundUp_pred hpos (by omega)]
      at hproduct
    rw [← hproduct]
    exact Nat.mod_lt _ (by decide)
  · intro h
    obtain ⟨hcount, k, htotal⟩ := h.group_count hgate
    obtain ⟨hfirst, -, hlast⟩ := h
    have hN := roundUp_bounds (n := s.blockCount) hpos
    have hpred := roundUp_pred hpos (n := s.blockCount) (by omega)
    rw [← hpred] at hlast
    have hprobed : s.probedGroups
        = (s.blockCount + s.blocksPerGroup - 1) / s.blocksPerGroup := by
      rw [Sblock.probedGroups, hfirst, Nat.sub_zero]
    rw [← hprobed] at hN hlast
    have hinodes := hgate.inodes_count
    have hinodesLt : s.inodesCount < 2 ^ 32 := rd32_lt _ _
    have hsplitB : s.probedGroups * s.blocksPerGroup
        = (s.probedGroups - 1) * s.blocksPerGroup + s.blocksPerGroup := by
      rw [← Nat.succ_mul, Nat.succ_eq_add_one, Nat.sub_add_cancel hgroups]
    have hsplitI : s.inodesPerGroup * s.probedGroups
        = (s.probedGroups - 1) * s.inodesPerGroup + s.inodesPerGroup := by
      rw [← Nat.succ_mul, Nat.succ_eq_add_one, Nat.sub_add_cancel hgroups, Nat.mul_comm]
    have hcut : sub32 (ext4BlockGroupCnt s) 1 = s.probedGroups - 1 := by
      rw [hcount, sub32_one hgroups (by omega)]
    have hbpg : s.blocksPerGroup < 2 ^ 32 := rd32_lt _ _
    have hstart : (s.probedGroups - 1) * s.blocksPerGroup < s.blockCount := by omega
    have hend : s.blockCount ≤ (s.probedGroups - 1) * s.blocksPerGroup + s.blocksPerGroup := by
      omega
    have hblocksIn : ∀ g, 1 ≤ ext4BlocksInGroupCnt s g ∧
        ext4BlocksInGroupCnt s g ≤ s.blocksPerGroup := by
      intro g
      unfold ext4BlocksInGroupCnt mul32
      rw [hcut, htotal]
      split
      · omega
      · rw [sub_cut hlast hstart hend hbpg]
        omega
    have hinodesIn : ∀ g, ext4InodesInGroupCnt s g = s.inodesPerGroup := by
      intro g
      unfold ext4InodesInGroupCnt
      rw [hcut, mul32, sub32]
      split
      · rfl
      · generalize (s.probedGroups - 1) * s.inodesPerGroup = p at *
        omega
    have hbits := hgate.blocks_per_group_le
    have hinodeBits := hgate.inodes_per_group_le
    have hipg := hgate.inodes_per_group_ge
    refine ⟨hcount, ?_, fun g _ => hblocksIn g, ?_, ?_, fun b => ?_, fun i => ?_,
      fun g _ => (hblocksIn g).2.trans hbits, fun g _ => (hinodesIn g).le.trans hinodeBits,
      fun g hg => ?_, fun g hg => ?_⟩
    · rw [sum_blocksInGroup (by omega) (by omega), hcount, hfirst, htotal]
      rw [sub_cut hlast hstart hend hbpg]
      omega
    · rw [hcount, sum_const_nat fun g _ => hinodesIn g, card_range, Nat.mul_comm, hinodes]
    · rw [hcount]
      omega
    · exact (Nat.mod_lt _ hpos).trans_le hbits
    · exact (Nat.mod_lt _ (by omega)).trans_le hinodeBits
    · refine Nat.mod_eq_of_lt (lt_of_le_of_lt (Nat.mul_le_mul_right _ ?_) hlast)
      omega
    · refine Nat.mod_eq_of_lt (lt_of_le_of_lt (Nat.mul_le_mul_right _ (?_ : g ≤
        s.probedGroups - 1)) (by omega))
      omega

/-! A revision 0 volume of 8193 blocks of 1 KiB in one group, as `mke2fs -b 1024 -g 8192` lays it
out, and one with blocks of 4 KiB. -/

/-- The superblock with the given bytes, and zeros. -/
def sbOf (fields : List (ℕ × UInt8)) : Sblock := fun i => (fields.lookup i.val).getD 0

def bootBlockSb : Sblock := sbOf
  [(0x000, 8), (0x004, 0x01), (0x005, 0x20), (0x014, 1), (0x021, 0x20), (0x028, 8), (0x038, 0x53),
    (0x039, 0xEF), (0x058, 128)]

def plainSb : Sblock := sbOf
  [(0x000, 8), (0x005, 0x20), (0x018, 2), (0x021, 0x80), (0x028, 8), (0x038, 0x53),
    (0x039, 0xEF), (0x058, 128)]

/-- The boot block fills up the one group: the source counts two. -/
theorem arithmeticSound_bootBlock :
    Accepted ⟨8193, 1024, some bootBlockSb⟩ bootBlockSb ∧ ¬ ArithmeticSound bootBlockSb :=
  ⟨⟨rfl, _, rfl, by decide⟩, fun h => absurd h.group_count (by decide)⟩

theorem arithmeticSound_iff_plain :
    Accepted ⟨8192, 4096, some plainSb⟩ plainSb ∧
      (ArithmeticSound plainSb ↔ ArithmeticFits plainSb) ∧ ArithmeticFits plainSb :=
  have haccepted : Accepted ⟨8192, 4096, some plainSb⟩ plainSb := ⟨rfl, _, rfl, by decide⟩
  ⟨haccepted, arithmeticSound_iff haccepted, by decide⟩

/-! ## The superblocks of the allocator's model -/

/-- A superblock behind the gate, with the fields the gate does not look at. -/
def Sb.ofGate {s : Sblock} (h : Gate s) (descSize : ℕ) (hugeFile : Bool) : Sb where
  logBlockSize := s.logBlockSize
  blocksCount := s.blockCount
  firstDataBlock := s.firstDataBlock
  blocksPerGroup := s.blocksPerGroup
  inodesPerGroup := s.inodesPerGroup
  inodesCount := s.inodesCount
  descSize := descSize
  hugeFile := hugeFile
  log_block_size := h.log_block_size
  fits_device := h.fits_device
  blocks_per_group_ge := h.blocks_per_group_ge
  blocks_per_group_le := h.blocks_per_group_le
  blocks_per_group_mod := h.blocks_per_group_mod
  first_data_block := by
    rw [h.first_data_block]
    unfold Sblock.blockSize
    have hpos := Nat.two_pow_pos s.logBlockSize
    by_cases hzero : s.logBlockSize = 0
    · simp [hzero]
    · have hone : 1 < 2 ^ s.logBlockSize := Nat.one_lt_two_pow hzero
      rw [if_neg (by omega), if_neg hzero]
  first_data_block_lt := h.first_data_block_lt
  inodes_per_group_ge := h.inodes_per_group_ge
  inodes_count_lt := rd32_lt _ _
  inodes_count := h.inodes_count

/-- Where both sides read the same block count, the model counts the groups the source counts. -/
theorem ofGate_blockGroupCnt {s : Sblock} (h : Gate s) (d : ℕ) (f : Bool)
    (hhi : s.is64bit = true ∨ s.blocksCountHi = 0) :
    Ext4.ext4BlockGroupCnt (Sb.ofGate h d f) = ext4BlockGroupCnt s := by
  have htotal : ext4SbGetBlocksCnt s = s.blockCount := by
    rw [ext4SbGetBlocksCnt_eq]
    rcases hhi with h64 | hzero
    · simp [h64]
    · simp [hzero]
  unfold ext4BlockGroupCnt
  rw [htotal]
  rfl

end Gate

end OnMedium

end Ext4
