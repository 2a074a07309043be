import Mathlib.Tactic.IntervalCases
import Mathlib.Tactic.SplitIfs
import OpenExt4.Balloc.Bitmap

set_option autoImplicit false

/-! # Block groups

The superblock fields the block allocator computes addresses from, with the bounds `ext4b_probe`
puts on them, the conversions between a block, its group and its bit with the widths of the C
types, and the block count of an inode. -/

namespace Ext4

/-- The error numbers the file system code returns. -/
inductive Errno where
  | ENOSPC
  | EINVAL
  | EIO
  | ENXIO
  | ENOMEM
  deriving DecidableEq, Repr

/-- `EXT4_MIN_BLOCK_GROUP_DESCRIPTOR_SIZE`. -/
def EXT4_MIN_BLOCK_GROUP_DESCRIPTOR_SIZE : ℕ := 32

/-- `EXT4_INODE_BLOCK_SIZE`, the unit of an inode's block count. -/
def EXT4_INODE_BLOCK_SIZE : ℕ := 512

/-- The fields of `struct ext4_sblock` the allocator reads, of a volume that passed the geometry
    gate of `ext4b_probe`. -/
structure Sb where
  logBlockSize : ℕ
  blocksCount : ℕ
  firstDataBlock : ℕ
  blocksPerGroup : ℕ
  inodesPerGroup : ℕ
  inodesCount : ℕ
  descSize : ℕ
  hugeFile : Bool
  log_block_size : logBlockSize ≤ 6
  fits_device : blocksCount * (1024 * 2 ^ logBlockSize) < 2 ^ 64
  blocks_per_group_ge : 8 ≤ blocksPerGroup
  blocks_per_group_le : blocksPerGroup ≤ 8 * (1024 * 2 ^ logBlockSize)
  blocks_per_group_mod : blocksPerGroup % 8 = 0
  first_data_block : firstDataBlock = if logBlockSize = 0 then 1 else 0
  first_data_block_lt : firstDataBlock < blocksCount
  inodes_per_group_ge : 8 ≤ inodesPerGroup
  inodes_count_lt : inodesCount < 2 ^ 32
  inodes_count : inodesPerGroup
    * ((blocksCount - firstDataBlock + blocksPerGroup - 1) / blocksPerGroup) = inodesCount

namespace Sb

/-- `ext4_sb_get_block_size`. -/
abbrev blockSize (sb : Sb) : ℕ := 1024 * 2 ^ sb.logBlockSize

/-- The number of groups the blocks of the volume make, as the probe counts them. -/
def groups (sb : Sb) : ℕ :=
  (sb.blocksCount - sb.firstDataBlock + sb.blocksPerGroup - 1) / sb.blocksPerGroup

/-- The blocks group `g` really has. -/
def realBlocks (sb : Sb) (g : ℕ) : ℕ :=
  min sb.blocksPerGroup (sb.blocksCount - sb.firstDataBlock - g * sb.blocksPerGroup)

/-- A block of the volume. -/
def HasBlock (sb : Sb) (b : ℕ) : Prop := sb.firstDataBlock ≤ b ∧ b < sb.blocksCount

instance (sb : Sb) (b : ℕ) : Decidable (sb.HasBlock b) := inferInstanceAs (Decidable (_ ∧ _))

/-- The group of a block of the volume, and the block's bit in it. -/
def groupOf (sb : Sb) (b : ℕ) : ℕ := (b - sb.firstDataBlock) / sb.blocksPerGroup

def indexOf (sb : Sb) (b : ℕ) : ℕ := (b - sb.firstDataBlock) % sb.blocksPerGroup

/-- The block behind a bit. -/
def blockAt (sb : Sb) (g i : ℕ) : ℕ := sb.blocksPerGroup * g + i + sb.firstDataBlock

end Sb

/-! ## The conversions of the source -/

/-- Step over the boot block of a 1 KiB volume. -/
def skipBoot (sb : Sb) (baddr : ℕ) : ℕ :=
  if sb.firstDataBlock ≠ 0 ∧ baddr ≠ 0 then baddr - 1 else baddr

/-- `ext4_balloc_get_bgid_of_block`. -/
def ext4BallocGetBgidOfBlock (sb : Sb) (baddr : ℕ) : ℕ :=
  skipBoot sb baddr / sb.blocksPerGroup % 2 ^ 32

/-- `ext4_balloc_get_block_of_bgid`, whose product is one of 32 bits. -/
def ext4BallocGetBlockOfBgid (sb : Sb) (bgid : ℕ) : ℕ :=
  (if sb.firstDataBlock ≠ 0 then 1 else 0) + bgid * sb.blocksPerGroup % 2 ^ 32

/-- `ext4_fs_addr_to_idx_bg`. -/
def ext4FsAddrToIdxBg (sb : Sb) (baddr : ℕ) : ℕ := skipBoot sb baddr % sb.blocksPerGroup

/-- `ext4_fs_bg_idx_to_addr`, which computes in 32 bits. -/
def ext4FsBgIdxToAddr (sb : Sb) (index bgid : ℕ) : ℕ :=
  (sb.blocksPerGroup * bgid + (if sb.firstDataBlock ≠ 0 then index + 1 else index)) % 2 ^ 32

/-- `ext4_block_group_cnt`. -/
def ext4BlockGroupCnt (sb : Sb) : ℕ :=
  (sb.blocksCount / sb.blocksPerGroup % 2 ^ 32
    + if sb.blocksCount % sb.blocksPerGroup ≠ 0 then 1 else 0) % 2 ^ 32

/-- `ext4_blocks_in_group_cnt`. -/
def ext4BlocksInGroupCnt (sb : Sb) (bgid : ℕ) : ℕ :=
  if bgid < ext4BlockGroupCnt sb - 1 then sb.blocksPerGroup
  else (sb.blocksCount - (ext4BlockGroupCnt sb - 1) * sb.blocksPerGroup % 2 ^ 32) % 2 ^ 32

/-! ## What the gate makes of them -/

section Gate

variable (sb : Sb)

theorem Sb.blocksPerGroup_pos : 0 < sb.blocksPerGroup := by
  have := sb.blocks_per_group_ge
  omega

theorem Sb.blockSize_le : sb.blockSize ≤ 65536 := by
  have h : 2 ^ sb.logBlockSize ≤ 2 ^ 6 := Nat.pow_le_pow_right (by decide) sb.log_block_size
  unfold blockSize
  omega

theorem Sb.blocksPerGroup_le : sb.blocksPerGroup ≤ 2 ^ 19 := by
  have := sb.blocks_per_group_le
  have := sb.blockSize_le
  unfold blockSize at this
  omega

theorem Sb.blocksPerGroup_le_bits : sb.blocksPerGroup ≤ 8 * sb.blockSize :=
  sb.blocks_per_group_le

theorem Sb.firstDataBlock_le : sb.firstDataBlock ≤ 1 := by
  rw [sb.first_data_block]
  split <;> omega

/-- The blocks of a volume behind the boot block, group by group. -/
theorem Sb.blocks_eq : ∃ q r, sb.blocksCount = sb.firstDataBlock + q * sb.blocksPerGroup + r ∧
    r < sb.blocksPerGroup ∧ sb.groups = q + if r = 0 then 0 else 1 := by
  refine ⟨(sb.blocksCount - sb.firstDataBlock) / sb.blocksPerGroup,
    (sb.blocksCount - sb.firstDataBlock) % sb.blocksPerGroup, ?_,
    Nat.mod_lt _ sb.blocksPerGroup_pos, ?_⟩
  · have hdiv := Nat.div_add_mod (sb.blocksCount - sb.firstDataBlock) sb.blocksPerGroup
    rw [Nat.mul_comm] at hdiv
    have := sb.first_data_block_lt
    omega
  · unfold groups
    generalize sb.blocksCount - sb.firstDataBlock = m
    have hpos := sb.blocksPerGroup_pos
    have hmod := Nat.mod_lt m hpos
    have hdiv := Nat.div_add_mod m sb.blocksPerGroup
    generalize hq : m / sb.blocksPerGroup = q at *
    generalize hr : m % sb.blocksPerGroup = r at *
    subst hdiv
    split
    · next hzero =>
        rw [hzero, Nat.add_zero, Nat.add_zero, Nat.add_sub_assoc (by omega),
          Nat.mul_add_div hpos, Nat.div_eq_of_lt (by omega), Nat.add_zero]
    · next hne =>
        have hsum : sb.blocksPerGroup * q + r + sb.blocksPerGroup - 1
            = sb.blocksPerGroup * (q + 1) + (r - 1) := by
          rw [Nat.mul_add, Nat.mul_one]
          omega
        rw [hsum, Nat.mul_add_div hpos, Nat.div_eq_of_lt (by omega), Nat.add_zero]

theorem Sb.groups_lt : sb.groups < 2 ^ 29 := by
  have hinodes : sb.inodesPerGroup * sb.groups = sb.inodesCount := sb.inodes_count
  have hlt := sb.inodes_count_lt
  have hle : 8 * sb.groups ≤ sb.inodesPerGroup * sb.groups :=
    Nat.mul_le_mul_right _ sb.inodes_per_group_ge
  omega

theorem Sb.groups_pos : 0 < sb.groups := by
  obtain ⟨q, r, hcount, hr, hgroups⟩ := sb.blocks_eq
  have := sb.first_data_block_lt
  rw [hgroups]
  by_cases hzero : r = 0
  · have hq : q ≠ 0 := by
      rintro rfl
      omega
    omega
  · rw [if_neg hzero]
    omega

/-- A volume whose blocks, the boot block included, fill its groups but for one block: counting the
    boot block in, the source sees one group more than there is. -/
def Sb.Phantom : Prop :=
  sb.firstDataBlock ≠ 0 ∧ (sb.blocksCount - sb.firstDataBlock) % sb.blocksPerGroup = 0

instance : Decidable sb.Phantom := inferInstanceAs (Decidable (_ ∧ _))

/-- The source's group count is the number of groups, or one more. -/
theorem ext4BlockGroupCnt_eq :
    ext4BlockGroupCnt sb = sb.groups + if sb.Phantom then 1 else 0 := by
  obtain ⟨q, r, hcount, hr, hgroups⟩ := sb.blocks_eq
  have hpos := sb.blocksPerGroup_pos
  have hge := sb.blocks_per_group_ge
  have hlt := sb.groups_lt
  have hfirst := sb.firstDataBlock_le
  have hsub : sb.blocksCount - sb.firstDataBlock = sb.blocksPerGroup * q + r := by
    rw [hcount, Nat.mul_comm]
    omega
  have hphantom : sb.Phantom ↔ sb.firstDataBlock = 1 ∧ r = 0 := by
    unfold Sb.Phantom
    rw [hsub, Nat.mul_add_mod, Nat.mod_eq_of_lt hr]
    omega
  unfold ext4BlockGroupCnt
  -- the boot block may carry the last group over into a new one
  by_cases hcarry : sb.firstDataBlock + r = sb.blocksPerGroup
  · have hN : sb.blocksCount = sb.blocksPerGroup * (q + 1) := by
      rw [hcount, Nat.mul_add, Nat.mul_one, Nat.mul_comm q]
      omega
    have hdiv : sb.blocksCount / sb.blocksPerGroup = q + 1 := by
      rw [hN, Nat.mul_div_cancel_left _ hpos]
    have hmod : sb.blocksCount % sb.blocksPerGroup = 0 := by
      rw [hN, Nat.mul_mod_right]
    rw [hdiv, hmod, if_neg (by simp), if_neg (by rw [hphantom]; omega), hgroups]
    rw [hgroups] at hlt
    split_ifs at * <;> omega
  · have hN : sb.blocksCount = sb.blocksPerGroup * q + (sb.firstDataBlock + r) := by
      rw [hcount, Nat.mul_comm q]
      omega
    have hdiv : sb.blocksCount / sb.blocksPerGroup = q := by
      rw [hN, Nat.mul_add_div hpos, Nat.div_eq_of_lt (by omega), Nat.add_zero]
    have hmod : sb.blocksCount % sb.blocksPerGroup = sb.firstDataBlock + r := by
      rw [hN, Nat.mul_add_mod, Nat.mod_eq_of_lt (by omega)]
    have hq : q < 2 ^ 29 := by
      rw [hgroups] at hlt
      split at hlt <;> omega
    rw [hdiv, hmod, hgroups, Nat.mod_eq_of_lt (by omega : q < 2 ^ 32)]
    by_cases hzero : r = 0
    · by_cases hboot : sb.firstDataBlock = 1
      · rw [if_pos (by omega), if_pos hzero, if_pos (hphantom.mpr ⟨hboot, hzero⟩)]
        omega
      · rw [if_neg (by omega), if_pos hzero, if_neg fun h => hboot (hphantom.mp h).1]
        omega
    · rw [if_pos (by omega), if_neg hzero, if_neg fun h => hzero (hphantom.mp h).2]
      omega

/-- The source sizes a real group right, or gives the last one a block too many, within the
    bitmap. -/
theorem ext4BlocksInGroupCnt_bounds {g : ℕ} (hg : g < sb.groups) :
    sb.realBlocks g ≤ ext4BlocksInGroupCnt sb g ∧
      ext4BlocksInGroupCnt sb g ≤ sb.realBlocks g + 1 ∧
      ext4BlocksInGroupCnt sb g ≤ sb.blocksPerGroup := by
  obtain ⟨q, r, hcount, hr, hgroups⟩ := sb.blocks_eq
  have hfirst := sb.firstDataBlock_le
  have hle := sb.blocksPerGroup_le
  have hG := ext4BlockGroupCnt_eq sb
  have hsub : sb.blocksCount - sb.firstDataBlock = q * sb.blocksPerGroup + r := by omega
  have hphantom : sb.Phantom → sb.firstDataBlock = 1 ∧ r = 0 := by
    rintro ⟨hboot, hmod⟩
    rw [hsub, Nat.mul_comm, Nat.mul_add_mod, Nat.mod_eq_of_lt hr] at hmod
    omega
  unfold ext4BlocksInGroupCnt Sb.realBlocks
  rw [hsub]
  by_cases hlast : g < ext4BlockGroupCnt sb - 1
  · -- a full group
    rw [if_pos hlast]
    have hfull : g + 1 ≤ q := by
      by_cases hp : sb.Phantom
      · have := hphantom hp
        rw [if_pos this.2] at hgroups
        omega
      · rw [if_neg hp] at hG
        split at hgroups <;> omega
    have hmul : (g + 1) * sb.blocksPerGroup ≤ q * sb.blocksPerGroup := Nat.mul_le_mul_right _ hfull
    rw [Nat.add_mul, Nat.one_mul] at hmul
    omega
  · rw [if_neg hlast]
    have hnot : ¬ sb.Phantom := by
      intro hp
      rw [if_pos hp] at hG
      omega
    rw [if_neg hnot, Nat.add_zero] at hG
    have hg' : g = sb.groups - 1 := by omega
    rw [hG, ← hg']
    by_cases hzero : r = 0
    · rw [if_pos hzero, Nat.add_zero] at hgroups
      have hq : q = g + 1 := by omega
      subst hq
      rw [Nat.add_mul, Nat.one_mul] at hcount ⊢
      have hboot : sb.firstDataBlock = 0 := by
        by_contra hne
        exact hnot ⟨hne, by rw [hsub, hzero, Nat.add_zero, Nat.mul_mod_left]⟩
      omega
    · rw [if_neg hzero] at hgroups
      have hq : q = g := by omega
      subst hq
      omega

theorem Sb.realBlocks_le (g : ℕ) : sb.realBlocks g ≤ sb.blocksPerGroup := min_le_left ..

/-- The one block of the group that is not there. -/
theorem ext4BlocksInGroupCnt_phantom (hp : sb.Phantom) :
    ext4BlocksInGroupCnt sb sb.groups = 1 := by
  obtain ⟨q, r, hcount, hr, hgroups⟩ := sb.blocks_eq
  have hfirst := sb.firstDataBlock_le
  have hG := ext4BlockGroupCnt_eq sb
  rw [if_pos hp] at hG
  have hsub : sb.blocksCount - sb.firstDataBlock = q * sb.blocksPerGroup + r := by omega
  have hzero : r = 0 := by
    have hmod := hp.2
    rwa [hsub, Nat.mul_comm, Nat.mul_add_mod, Nat.mod_eq_of_lt hr] at hmod
  have hboot := hp.1
  rw [if_pos hzero, Nat.add_zero] at hgroups
  unfold ext4BlocksInGroupCnt
  rw [if_neg (by omega), hG, Nat.add_sub_cancel, hgroups]
  omega

variable {sb}

theorem skipBoot_of_hasBlock {b : ℕ} (h : sb.HasBlock b) :
    skipBoot sb b = b - sb.firstDataBlock := by
  have := sb.firstDataBlock_le
  have := h.1
  unfold skipBoot
  split <;> omega

/-- The group and the bit of a block of the volume. -/
theorem Sb.HasBlock.index {b : ℕ} (h : sb.HasBlock b) :
    sb.groupOf b < sb.groups ∧ sb.indexOf b < sb.realBlocks (sb.groupOf b) ∧
      sb.blockAt (sb.groupOf b) (sb.indexOf b) = b := by
  obtain ⟨q, r, hcount, hr, hgroups⟩ := sb.blocks_eq
  obtain ⟨hlo, hhi⟩ := h
  have hpos := sb.blocksPerGroup_pos
  have hdiv := Nat.div_add_mod (b - sb.firstDataBlock) sb.blocksPerGroup
  have hmod := Nat.mod_lt (b - sb.firstDataBlock) hpos
  unfold groupOf indexOf realBlocks blockAt
  generalize (b - sb.firstDataBlock) / sb.blocksPerGroup = g at *
  generalize (b - sb.firstDataBlock) % sb.blocksPerGroup = i at *
  have hin : g * sb.blocksPerGroup + i < q * sb.blocksPerGroup + r := by
    rw [Nat.mul_comm g]
    omega
  refine ⟨?_, ?_, by omega⟩
  · have hgq : g ≤ q := by
      by_contra hgt
      have hmul : (q + 1) * sb.blocksPerGroup ≤ g * sb.blocksPerGroup :=
        Nat.mul_le_mul_right _ (by omega)
      rw [Nat.add_mul, Nat.one_mul] at hmul
      omega
    rw [hgroups]
    split
    · next hzero =>
        rw [hzero, Nat.add_zero] at hin
        have hne : g ≠ q := by
          rintro rfl
          omega
        omega
    · omega
  · rw [Nat.mul_comm g] at hin ⊢
    omega

/-- A bit of a real group stands for a block of the volume. -/
theorem Sb.blockAt_index {g i : ℕ} (hi : i < sb.realBlocks g) :
    sb.HasBlock (sb.blockAt g i) ∧ sb.groupOf (sb.blockAt g i) = g ∧
      sb.indexOf (sb.blockAt g i) = i := by
  have hpos := sb.blocksPerGroup_pos
  unfold realBlocks at hi
  rw [Nat.mul_comm] at hi
  have hib : i < sb.blocksPerGroup := by omega
  refine ⟨⟨by unfold blockAt; omega, by unfold blockAt; omega⟩, ?_, ?_⟩
  · unfold groupOf blockAt
    rw [Nat.add_sub_cancel, Nat.mul_add_div hpos, Nat.div_eq_of_lt hib, Nat.add_zero]
  · unfold indexOf blockAt
    rw [Nat.add_sub_cancel, Nat.mul_add_mod, Nat.mod_eq_of_lt hib]

theorem ext4BallocGetBgidOfBlock_eq {b : ℕ} (h : sb.HasBlock b) :
    ext4BallocGetBgidOfBlock sb b = sb.groupOf b := by
  have := h.index.1
  have := sb.groups_lt
  unfold ext4BallocGetBgidOfBlock
  rw [skipBoot_of_hasBlock h]
  exact Nat.mod_eq_of_lt (by unfold Sb.groupOf at *; omega)

theorem ext4FsAddrToIdxBg_eq {b : ℕ} (h : sb.HasBlock b) :
    ext4FsAddrToIdxBg sb b = sb.indexOf b := by
  unfold ext4FsAddrToIdxBg Sb.indexOf
  rw [skipBoot_of_hasBlock h]

/-- The address the source makes of a bit is that of the block, cut to 32 bits. -/
theorem ext4FsBgIdxToAddr_eq (g i : ℕ) :
    ext4FsBgIdxToAddr sb i g = sb.blockAt g i % 2 ^ 32 := by
  have := sb.firstDataBlock_le
  unfold ext4FsBgIdxToAddr Sb.blockAt
  congr 1
  split <;> omega

end Gate

/-! ## The block count of an inode -/

/-- `ext4_inode_block_bits_count`, with `fuel` for its loop. -/
def ext4InodeBlockBitsCount : ℕ → ℕ → ℕ → ℕ
  | 0, bits, _ => bits
  | fuel + 1, bits, size =>
      if size / 2 > 256 then ext4InodeBlockBitsCount fuel (bits + 1) (size / 2) else bits + 1

/-- The fields of `struct ext4_inode` that hold its block count. -/
structure InodeBlocks where
  blocksCountLo : ℕ
  blocksHigh : ℕ
  hugeFile : Bool

/-- How far a count in file system blocks is shifted to one in sectors. -/
def hugeShift (sb : Sb) : ℕ := ext4InodeBlockBitsCount 16 8 sb.blockSize - 9

/-- `ext4_inode_get_blocks_count`. -/
def ext4InodeGetBlocksCount (sb : Sb) (inode : InodeBlocks) : ℕ :=
  if sb.hugeFile then
    let cnt := inode.blocksCountLo + inode.blocksHigh * 2 ^ 32
    if inode.hugeFile then cnt * 2 ^ hugeShift sb % 2 ^ 64 else cnt
  else inode.blocksCountLo

/-- `ext4_inode_set_blocks_count`. The allocator does not look at its error, for which the inode is
    left alone. -/
def ext4InodeSetBlocksCount (sb : Sb) (inode : InodeBlocks) (count : ℕ) : InodeBlocks :=
  if count ≤ 2 ^ 32 - 1 then { blocksCountLo := count, blocksHigh := 0, hugeFile := false }
  else if !sb.hugeFile then inode
  else if count ≤ 2 ^ 48 - 1 then
    { blocksCountLo := count % 2 ^ 32, blocksHigh := count / 2 ^ 32 % 2 ^ 16, hugeFile := false }
  else
    let count := count / 2 ^ hugeShift sb
    { blocksCountLo := count % 2 ^ 32, blocksHigh := count / 2 ^ 32 % 2 ^ 16, hugeFile := true }

/-- The counts an inode of the volume can hold. -/
def BlocksFit (sb : Sb) (count : ℕ) : Prop :=
  count ≤ 2 ^ 32 - 1 ∨
    sb.hugeFile = true ∧ (count ≤ 2 ^ 48 - 1 ∨
      count % 2 ^ hugeShift sb = 0 ∧ count / 2 ^ hugeShift sb < 2 ^ 48)

instance (sb : Sb) (count : ℕ) : Decidable (BlocksFit sb count) :=
  inferInstanceAs (Decidable (_ ∨ _))

/-- The widths of the fields. -/
structure InodeBlocks.Wf (inode : InodeBlocks) : Prop where
  lo : inode.blocksCountLo < 2 ^ 32
  high : inode.blocksHigh < 2 ^ 16

theorem hugeShift_eq (sb : Sb) : 2 ^ hugeShift sb = sb.blockSize / EXT4_INODE_BLOCK_SIZE ∧
    hugeShift sb ≤ 7 := by
  have hle := sb.log_block_size
  unfold hugeShift Sb.blockSize EXT4_INODE_BLOCK_SIZE
  generalize sb.logBlockSize = k at *
  interval_cases k <;> decide

/-- **A count reads back as stored exactly if the inode can hold it.** -/
theorem getBlocksCount_set_iff {sb : Sb} {inode : InodeBlocks} (hwf : inode.Wf) (count : ℕ) :
    ext4InodeGetBlocksCount sb (ext4InodeSetBlocksCount sb inode count) = count ↔
      BlocksFit sb count := by
  have hlo := hwf.lo
  have hshift := (hugeShift_eq sb).2
  have hpow : 2 ^ hugeShift sb ≤ 2 ^ 7 := Nat.pow_le_pow_right (by decide) hshift
  have hpos : 0 < 2 ^ hugeShift sb := Nat.two_pow_pos _
  unfold ext4InodeGetBlocksCount ext4InodeSetBlocksCount BlocksFit
  generalize 2 ^ hugeShift sb = m at *
  by_cases h32 : count ≤ 2 ^ 32 - 1
  · rw [if_pos h32]
    dsimp only
    rw [Nat.zero_mul, Nat.add_zero, if_neg Bool.false_ne_true, ite_self]
    exact ⟨fun _ => Or.inl h32, fun _ => rfl⟩
  · rw [if_neg h32]
    cases hhuge : sb.hugeFile with
    | false =>
        simp only [Bool.not_false, if_true, Bool.false_eq_true, if_false, false_and, or_false]
        omega
    | true =>
        simp only [Bool.not_true, Bool.false_eq_true, if_false, if_true, true_and]
        by_cases h48 : count ≤ 2 ^ 48 - 1
        · rw [if_pos h48]
          simp only [Bool.false_eq_true, if_false, h48, true_or, or_true, iff_true]
          omega
        · rw [if_neg h48]
          simp only [if_true]
          have hdiv := Nat.div_add_mod count m
          generalize count / m = q at *
          generalize hr : count % m = r at *
          have hcut : q % 2 ^ 32 + q / 2 ^ 32 % 2 ^ 16 * 2 ^ 32 = q % 2 ^ 48 := by omega
          have hqm : q % 2 ^ 48 * m ≤ q % 2 ^ 48 * 2 ^ 7 := Nat.mul_le_mul_left _ hpow
          have hq48 : q % 2 ^ 48 < 2 ^ 48 := Nat.mod_lt _ (by decide)
          rw [hcut, Nat.mod_eq_of_lt (by omega)]
          constructor
          · intro heq
            have hle : q % 2 ^ 48 * m ≤ m * q := by
              rw [Nat.mul_comm m]
              exact Nat.mul_le_mul_right _ (Nat.mod_le _ _)
            have hrz : r = 0 := by omega
            have hqq : q % 2 ^ 48 = q := by
              have : q % 2 ^ 48 * m = q * m := by rw [heq, ← hdiv, hrz, Nat.mul_comm m]; omega
              exact Nat.eq_of_mul_eq_mul_right hpos this
            exact Or.inr (Or.inr ⟨hrz, by omega⟩)
          · rintro (h | h | ⟨hrz, hqlt⟩)
            · omega
            · omega
            · rw [Nat.mod_eq_of_lt hqlt, ← hdiv, hrz, Nat.mul_comm m]
              omega

end Ext4
