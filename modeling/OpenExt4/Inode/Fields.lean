import OpenExt4.Balloc.Gate

set_option autoImplicit false

/-! # Inode fields in two parts

`ext4_inode.c` on the bytes of an inode: the size, the block count and the address of the attribute
block are each stored in two parts, on conditions that differ from field to field. Over the bytes,
each setter with its getter is a field of its own; the block count is that of `Balloc.Geometry`. -/

namespace Ext4

open Ext4b Bytes

namespace OnMedium

/-! ## The source -/

/-- Where the fields of `struct ext4_inode` are. -/
def IN_MODE : ℕ := 0
def IN_SIZE_LO : ℕ := 4
def IN_BLOCKS_COUNT_LO : ℕ := 28
def IN_FLAGS : ℕ := 32
def IN_FILE_ACL_LO : ℕ := 104
def IN_SIZE_HI : ℕ := 108
def IN_BLOCKS_HIGH : ℕ := 116
def IN_FILE_ACL_HIGH : ℕ := 118
/-- Under Hurd, in the same place. -/
def IN_MODE_HIGH : ℕ := 118

def EXT4_SUPERBLOCK_OS_LINUX : ℕ := 0
def EXT4_SUPERBLOCK_OS_HURD : ℕ := 1
def EXT4_INODE_MODE_TYPE_MASK : ℕ := 0xF000
def EXT4_INODE_MODE_FILE : ℕ := 0x8000
def EXT4_INODE_FLAG_HUGE_FILE : ℕ := 0x40000
def EXT4_FRO_COM_HUGE_FILE : ℕ := 0x0008

/-- `creator_os` and `rev_level` of the superblock. -/
def creatorOs (s : Sblock) : ℕ := rd32 s 0x048

def revLevel (s : Sblock) : ℕ := rd32 s SBF_REV_LEVEL

/-- `ext4_sb_feature_ro_com` of the huge files. -/
def hugeFiles (s : Sblock) : Bool := hasBits s.featureRoCompat EXT4_FRO_COM_HUGE_FILE

section Source

variable {n : ℕ} (s : Sblock) (inode : Buf n)

/-- `ext4_inode_get_mode`. -/
def ext4InodeGetMode : ℕ :=
  getLE 2 inode IN_MODE
    ||| if creatorOs s = EXT4_SUPERBLOCK_OS_HURD then getLE 2 inode IN_MODE_HIGH <<< 16 else 0

/-- `ext4_inode_is_type`. -/
def ext4InodeIsType (type : ℕ) : Prop :=
  ext4InodeGetMode s inode &&& EXT4_INODE_MODE_TYPE_MASK = type

instance (type : ℕ) : Decidable (ext4InodeIsType s inode type) :=
  inferInstanceAs (Decidable (_ = _))

/-- `ext4_inode_get_size`. -/
def ext4InodeGetSize : ℕ :=
  let v := getLE 4 inode IN_SIZE_LO
  if revLevel s > 0 ∧ ext4InodeIsType s inode EXT4_INODE_MODE_FILE then
    v ||| getLE 4 inode IN_SIZE_HI <<< 32
  else v

/-- `ext4_inode_set_size`. -/
def ext4InodeSetSize (size : ℕ) : Buf n :=
  putLE 4 (putLE 4 inode IN_SIZE_LO (size % 2 ^ 32)) IN_SIZE_HI (size / 2 ^ 32)

/-- `ext4_inode_get_flags`, and the three calls on single flags. -/
def ext4InodeGetFlags : ℕ := getLE 4 inode IN_FLAGS

def ext4InodeHasFlag (f : ℕ) : Bool := hasBits (ext4InodeGetFlags inode) f

def ext4InodeClearFlag (f : ℕ) : Buf n :=
  putLE 4 inode IN_FLAGS (ext4InodeGetFlags inode &&& (0xFFFFFFFF ^^^ f))

def ext4InodeSetFlag (f : ℕ) : Buf n := putLE 4 inode IN_FLAGS (ext4InodeGetFlags inode ||| f)

/-- How far `ext4_inode_get_blocks_count` shifts a count in blocks. -/
def blockShift : ℕ := ext4InodeBlockBitsCount 16 8 s.blockSize - 9

/-- `ext4_inode_get_blocks_count`. -/
def ext4InodeGetBlocksCount : ℕ :=
  let cnt := getLE 4 inode IN_BLOCKS_COUNT_LO
  if hugeFiles s then
    let cnt := cnt ||| getLE 2 inode IN_BLOCKS_HIGH <<< 32
    if ext4InodeHasFlag inode EXT4_INODE_FLAG_HUGE_FILE then cnt <<< blockShift s % 2 ^ 64 else cnt
  else cnt

/-- The two halves of a block count. -/
def putBlocks (count : ℕ) : Buf n :=
  putLE 2 (putLE 4 inode IN_BLOCKS_COUNT_LO (count % 2 ^ 32)) IN_BLOCKS_HIGH
    (count / 2 ^ 32 % 2 ^ 16)

/-- `ext4_inode_set_blocks_count`. -/
def ext4InodeSetBlocksCount (count : ℕ) : Except Errno (Buf n) :=
  if count ≤ 2 ^ 32 - 1 then
    .ok (ext4InodeClearFlag (putBlocks inode count) EXT4_INODE_FLAG_HUGE_FILE)
  else if !hugeFiles s then .error .EINVAL
  else if count ≤ 2 ^ 48 - 1 then
    .ok (ext4InodeClearFlag (putBlocks inode count) EXT4_INODE_FLAG_HUGE_FILE)
  else
    .ok (putBlocks (ext4InodeSetFlag inode EXT4_INODE_FLAG_HUGE_FILE) (count / 2 ^ blockShift s))

/-- `ext4_inode_get_file_acl`. -/
def ext4InodeGetFileAcl : ℕ :=
  let v := getLE 4 inode IN_FILE_ACL_LO
  -- by 16, where the setter shifts by 32
  if creatorOs s = EXT4_SUPERBLOCK_OS_LINUX then v ||| getLE 2 inode IN_FILE_ACL_HIGH <<< 16 else v

/-- `ext4_inode_set_file_acl`. -/
def ext4InodeSetFileAcl (acl : ℕ) : Buf n :=
  let inode := putLE 4 inode IN_FILE_ACL_LO (acl % 2 ^ 32)
  if creatorOs s = EXT4_SUPERBLOCK_OS_LINUX then
    putLE 2 inode IN_FILE_ACL_HIGH (acl / 2 ^ 32 % 2 ^ 16)
  else inode

end Source

/-! ## What the claim is -/

/-- Bytes outside the windows are the same. -/
def SameOutside {n : ℕ} (windows : List (ℕ × ℕ)) (a b : Buf n) : Prop :=
  ∀ i, (∀ w ∈ windows, i < w.1 ∨ w.1 + w.2 ≤ i) → get8 a i = get8 b i

/-- The sizes a regular file can record. -/
def SizeFits (s : Sblock) (size : ℕ) : Prop := size < if revLevel s > 0 then 2 ^ 64 else 2 ^ 32

/-- The block counts an inode can record, in sectors or, marked huge, in blocks. -/
def CountFits (s : Sblock) (count : ℕ) : Prop :=
  count ≤ 2 ^ 32 - 1 ∨ hugeFiles s = true ∧ (count ≤ 2 ^ 48 - 1 ∨
    count % 2 ^ blockShift s = 0 ∧ count / 2 ^ blockShift s < 2 ^ 48)

/-- The addresses of an attribute block an inode can record. -/
def AclFits (s : Sblock) (acl : ℕ) : Prop :=
  acl < if creatorOs s = EXT4_SUPERBLOCK_OS_LINUX then 2 ^ 48 else 2 ^ 32

instance (s : Sblock) (acl : ℕ) : Decidable (AclFits s acl) := inferInstanceAs (Decidable (_ < _))

/-- The split fields of an inode, set to these values, hold them, and setting them touches nothing
    else. -/
structure SplitFieldsSound {n : ℕ} (s : Sblock) (inode : Buf n) (size count acl : ℕ) : Prop where
  size_kept : ext4InodeIsType s inode EXT4_INODE_MODE_FILE → SizeFits s size →
    ext4InodeGetSize s (ext4InodeSetSize inode size) = size
  size_frame : SameOutside [(IN_SIZE_LO, 4), (IN_SIZE_HI, 4)] (ext4InodeSetSize inode size) inode
  count_kept : CountFits s count → ∃ inode', ext4InodeSetBlocksCount s inode count = .ok inode' ∧
    ext4InodeGetBlocksCount s inode' = count
  count_refused : ∀ inode', ext4InodeSetBlocksCount s inode count = .ok inode' →
    ext4InodeGetBlocksCount s inode' = count
  count_frame : ∀ inode', ext4InodeSetBlocksCount s inode count = .ok inode' →
    SameOutside [(IN_BLOCKS_COUNT_LO, 4), (IN_BLOCKS_HIGH, 2), (IN_FLAGS, 4)] inode' inode ∧
      ∀ bit ≠ 18, (ext4InodeGetFlags inode').testBit bit = (ext4InodeGetFlags inode).testBit bit
  acl_kept : AclFits s acl → ext4InodeGetFileAcl s (ext4InodeSetFileAcl s inode acl) = acl
  acl_frame : SameOutside ((IN_FILE_ACL_LO, 4) ::
      if creatorOs s = EXT4_SUPERBLOCK_OS_LINUX then [(IN_FILE_ACL_HIGH, 2)] else [])
    (ext4InodeSetFileAcl s inode acl) inode

/-! ## Stores -/

section Stores

variable {n : ℕ} {inode : Buf n}

theorem SameOutside.refl {ws : List (ℕ × ℕ)} : SameOutside ws inode inode := fun _ _ => rfl

/-- A store to one of the windows. -/
theorem SameOutside.putLE {ws : List (ℕ × ℕ)} {a : Buf n} (h : SameOutside ws a inode)
    {w o v : ℕ} (hw : (o, w) ∈ ws) : SameOutside ws (Bytes.putLE w a o v) inode := by
  intro i hi
  rw [Bytes.putLE, get8_patch_of_disjoint (hi _ hw), h i hi]

theorem getLE_putLE_of_disjoint {w w' o o' v : ℕ} (h : o' + w' ≤ o ∨ o + w ≤ o') :
    getLE w' (putLE w inode o v) o' = getLE w' inode o' := getLE_patch_of_disjoint h

/-- The two halves of a number, put together. -/
theorem or_shiftLeft {a k : ℕ} (b : ℕ) (h : a < 2 ^ k) : a ||| b <<< k = a + b * 2 ^ k := by
  rw [Nat.lor_comm, ← Nat.shiftLeft_add_eq_or_of_lt h, Nat.shiftLeft_eq, Nat.add_comm]

end Stores

/-! ## The size -/

section Fields

variable {n : ℕ} {s : Sblock} {inode : Buf n}

/-- The mode is not part of the size. -/
theorem getMode_setSize (size : ℕ) :
    ext4InodeGetMode s (ext4InodeSetSize inode size) = ext4InodeGetMode s inode := by
  unfold ext4InodeGetMode ext4InodeSetSize
  simp only [getLE_putLE_of_disjoint, IN_MODE, IN_MODE_HIGH, IN_SIZE_LO, IN_SIZE_HI, Nat.reduceAdd,
    Nat.reduceLeDiff, true_or, or_true]

theorem getSize_setSize (hn : 128 ≤ n) {size : ℕ}
    (hfile : ext4InodeIsType s inode EXT4_INODE_MODE_FILE) (hsize : SizeFits s size) :
    ext4InodeGetSize s (ext4InodeSetSize inode size) = size := by
  have hlo : getLE 4 (ext4InodeSetSize inode size) IN_SIZE_LO = size % 2 ^ 32 := by
    rw [ext4InodeSetSize, getLE_putLE_of_disjoint (by decide), getLE_putLE (by unfold IN_SIZE_LO; omega),
      show 256 ^ 4 = 2 ^ 32 by decide, Nat.mod_mod]
  have hhi : getLE 4 (ext4InodeSetSize inode size) IN_SIZE_HI = size / 2 ^ 32 % 2 ^ 32 := by
    rw [ext4InodeSetSize, getLE_putLE (by unfold IN_SIZE_HI; omega), show 256 ^ 4 = 2 ^ 32 by decide]
  have hfile' : ext4InodeIsType s (ext4InodeSetSize inode size) EXT4_INODE_MODE_FILE := by
    rw [ext4InodeIsType, getMode_setSize]
    exact hfile
  unfold SizeFits at hsize
  rw [ext4InodeGetSize, hlo, hhi]
  by_cases hrev : revLevel s > 0
  · rw [if_pos hrev] at hsize
    rw [if_pos ⟨hrev, hfile'⟩, or_shiftLeft _ (Nat.mod_lt _ (by decide))]
    omega
  · rw [if_neg hrev] at hsize
    rw [if_neg fun h => hrev h.1]
    omega

theorem setSize_frame (size : ℕ) :
    SameOutside [(IN_SIZE_LO, 4), (IN_SIZE_HI, 4)] (ext4InodeSetSize inode size) inode :=
  (SameOutside.refl.putLE (by simp)).putLE (by simp)

/-! ## The attribute block -/

/-- What comes back of an address: its halves, the upper one over the lower one. -/
theorem getFileAcl_setFileAcl (hn : 128 ≤ n) (acl : ℕ) :
    ext4InodeGetFileAcl s (ext4InodeSetFileAcl s inode acl) =
      acl % 2 ^ 32 ||| if creatorOs s = EXT4_SUPERBLOCK_OS_LINUX
        then (acl / 2 ^ 32 % 2 ^ 16) <<< 16 else 0 := by
  unfold ext4InodeGetFileAcl ext4InodeSetFileAcl
  have hpow : (256 : ℕ) ^ 4 = 2 ^ 32 ∧ (256 : ℕ) ^ 2 = 2 ^ 16 := by decide
  by_cases hos : creatorOs s = EXT4_SUPERBLOCK_OS_LINUX
  · simp only [if_pos hos]
    rw [getLE_putLE_of_disjoint (by decide), getLE_putLE (by unfold IN_FILE_ACL_LO; omega),
      getLE_putLE (by unfold IN_FILE_ACL_HIGH; omega), hpow.1, hpow.2, Nat.mod_mod, Nat.mod_mod]
  · simp only [if_neg hos]
    rw [getLE_putLE (by unfold IN_FILE_ACL_LO; omega), hpow.1, Nat.mod_mod, Nat.or_zero]

/-- An address comes back if it has no upper half. -/
theorem getFileAcl_setFileAcl_iff (hn : 128 ≤ n) (acl : ℕ) :
    (AclFits s acl → ext4InodeGetFileAcl s (ext4InodeSetFileAcl s inode acl) = acl) ↔
      (creatorOs s = EXT4_SUPERBLOCK_OS_LINUX → acl < 2 ^ 32 ∨ 2 ^ 48 ≤ acl) := by
  rw [getFileAcl_setFileAcl hn, AclFits]
  by_cases hos : creatorOs s = EXT4_SUPERBLOCK_OS_LINUX
  · rw [if_pos hos, if_pos hos, imp_iff_right hos]
    constructor
    · intro h
      by_contra hlt
      have hback := h (by omega)
      have hor : acl % 2 ^ 32 ||| (acl / 2 ^ 32 % 2 ^ 16) <<< 16 < 2 ^ 32 := by
        refine Nat.or_lt_two_pow (Nat.mod_lt _ (by decide)) ?_
        rw [Nat.shiftLeft_eq]
        omega
      omega
    · rintro (h | h) hfits
      · rw [Nat.mod_eq_of_lt h, Nat.div_eq_of_lt h, Nat.zero_mod, Nat.zero_shiftLeft, Nat.or_zero]
      · omega
  · rw [if_neg hos, if_neg hos, Nat.or_zero]
    exact ⟨fun _ h => absurd h hos, fun _ h => Nat.mod_eq_of_lt h⟩

theorem setFileAcl_frame (acl : ℕ) :
    SameOutside ((IN_FILE_ACL_LO, 4) ::
        if creatorOs s = EXT4_SUPERBLOCK_OS_LINUX then [(IN_FILE_ACL_HIGH, 2)] else [])
      (ext4InodeSetFileAcl s inode acl) inode := by
  unfold ext4InodeSetFileAcl
  by_cases hos : creatorOs s = EXT4_SUPERBLOCK_OS_LINUX
  · simp only [if_pos hos]
    exact (SameOutside.refl.putLE (by simp)).putLE (by simp)
  · simp only [if_neg hos]
    exact SameOutside.refl.putLE (by simp)

end Fields

/-! ## The block count -/

/-- The block count of an inode, as the block allocator has it. -/
def blocksOf {n : ℕ} (inode : Buf n) : InodeBlocks where
  blocksCountLo := getLE 4 inode IN_BLOCKS_COUNT_LO
  blocksHigh := getLE 2 inode IN_BLOCKS_HIGH
  hugeFile := ext4InodeHasFlag inode EXT4_INODE_FLAG_HUGE_FILE

section Blocks

variable {n : ℕ} {s : Sblock} {inode : Buf n}

theorem blocksOf_blocksCountLo :
    (blocksOf inode).blocksCountLo = getLE 4 inode IN_BLOCKS_COUNT_LO := rfl

theorem blocksOf_blocksHigh : (blocksOf inode).blocksHigh = getLE 2 inode IN_BLOCKS_HIGH := rfl

theorem blocksOf_hugeFile :
    (blocksOf inode).hugeFile = ext4InodeHasFlag inode EXT4_INODE_FLAG_HUGE_FILE := rfl

theorem blocksOf_wf : (blocksOf inode).Wf := by
  have hlo := getLE_lt 4 inode IN_BLOCKS_COUNT_LO
  have hhigh := getLE_lt 2 inode IN_BLOCKS_HIGH
  exact ⟨by simpa [blocksOf] using hlo, by simpa [blocksOf] using hhigh⟩

/-- A flag is a bit of the flags. -/
theorem hasFlag_eq : ext4InodeHasFlag inode EXT4_INODE_FLAG_HUGE_FILE
    = (ext4InodeGetFlags inode).testBit 18 := by
  rw [ext4InodeHasFlag, hasBits, show EXT4_INODE_FLAG_HUGE_FILE = 2 ^ 18 by decide, Nat.and_two_pow]
  cases (ext4InodeGetFlags inode).testBit 18 <;> rfl

theorem getFlags_lt : ext4InodeGetFlags inode < 2 ^ 32 := by
  simpa [ext4InodeGetFlags] using getLE_lt 4 inode IN_FLAGS

theorem testBit_clearFlag (hn : 128 ≤ n) (bit : ℕ) :
    (ext4InodeGetFlags (ext4InodeClearFlag inode EXT4_INODE_FLAG_HUGE_FILE)).testBit bit
      = ((ext4InodeGetFlags inode).testBit bit && decide (bit ≠ 18)) := by
  have hlt : ext4InodeGetFlags inode &&& (0xFFFFFFFF ^^^ EXT4_INODE_FLAG_HUGE_FILE) < 2 ^ 32 :=
    Nat.and_lt_two_pow _ (by decide)
  rw [ext4InodeClearFlag, ext4InodeGetFlags, getLE_putLE (by unfold IN_FLAGS; omega),
    show 256 ^ 4 = 2 ^ 32 by decide, Nat.mod_eq_of_lt hlt, Nat.testBit_and, Nat.testBit_xor,
    show 0xFFFFFFFF = 2 ^ 32 - 1 by decide, show EXT4_INODE_FLAG_HUGE_FILE = 2 ^ 18 by decide,
    Nat.testBit_two_pow_sub_one, Nat.testBit_two_pow]
  by_cases hbit : bit < 32
  · by_cases h18 : bit = 18 <;> simp [hbit, h18, eq_comm]
  · rw [Nat.testBit_lt_two_pow (getFlags_lt.trans_le (Nat.pow_le_pow_right (by decide) (by omega)))]
    rfl

theorem testBit_setFlag (hn : 128 ≤ n) (bit : ℕ) :
    (ext4InodeGetFlags (ext4InodeSetFlag inode EXT4_INODE_FLAG_HUGE_FILE)).testBit bit
      = ((ext4InodeGetFlags inode).testBit bit || decide (bit = 18)) := by
  have hlt : ext4InodeGetFlags inode ||| EXT4_INODE_FLAG_HUGE_FILE < 2 ^ 32 :=
    Nat.or_lt_two_pow getFlags_lt (by decide)
  rw [ext4InodeSetFlag, ext4InodeGetFlags, getLE_putLE (by unfold IN_FLAGS; omega),
    show 256 ^ 4 = 2 ^ 32 by decide, Nat.mod_eq_of_lt hlt, Nat.testBit_or,
    show EXT4_INODE_FLAG_HUGE_FILE = 2 ^ 18 by decide, Nat.testBit_two_pow]
  simp [eq_comm, ext4InodeGetFlags]

theorem getFlags_putBlocks (count : ℕ) :
    ext4InodeGetFlags (putBlocks inode count) = ext4InodeGetFlags inode := by
  rw [ext4InodeGetFlags, putBlocks, getLE_putLE_of_disjoint (by decide),
    getLE_putLE_of_disjoint (by decide), ext4InodeGetFlags]

/-- The halves of a count, as stored. -/
theorem blocksOf_putBlocks (hn : 128 ≤ n) (count : ℕ) : blocksOf (putBlocks inode count) =
    { blocksOf inode with
      blocksCountLo := count % 2 ^ 32
      blocksHigh := count / 2 ^ 32 % 2 ^ 16 } := by
  have hpow : (256 : ℕ) ^ 4 = 2 ^ 32 ∧ (256 : ℕ) ^ 2 = 2 ^ 16 := by decide
  have hlo : getLE 4 (putBlocks inode count) IN_BLOCKS_COUNT_LO = count % 2 ^ 32 := by
    rw [putBlocks, getLE_putLE_of_disjoint (by decide),
      getLE_putLE (by unfold IN_BLOCKS_COUNT_LO; omega), hpow.1, Nat.mod_mod]
  have hhigh : getLE 2 (putBlocks inode count) IN_BLOCKS_HIGH = count / 2 ^ 32 % 2 ^ 16 := by
    rw [putBlocks, getLE_putLE (by unfold IN_BLOCKS_HIGH; omega), hpow.2, Nat.mod_mod]
  rw [blocksOf, hlo, hhigh, ext4InodeHasFlag, getFlags_putBlocks]
  rfl

/-- The flags are not part of the halves. -/
theorem blocksOf_putFlags (v : ℕ) : blocksOf (putLE 4 inode IN_FLAGS v) =
    { blocksOf inode with
      hugeFile := (ext4InodeGetFlags (putLE 4 inode IN_FLAGS v)).testBit 18 } := by
  rw [blocksOf, getLE_putLE_of_disjoint (by decide), getLE_putLE_of_disjoint (by decide),
    hasFlag_eq]
  rfl

variable {sb : Sb} (hhuge : sb.hugeFile = hugeFiles s) (hshift : hugeShift sb = blockShift s)

include hhuge hshift

/-- **The getter on the bytes is the allocator's.** -/
theorem getBlocksCount_eq :
    ext4InodeGetBlocksCount s inode = Ext4.ext4InodeGetBlocksCount sb (blocksOf inode) := by
  have hlo : getLE 4 inode IN_BLOCKS_COUNT_LO < 2 ^ 32 := blocksOf_wf.lo
  unfold ext4InodeGetBlocksCount Ext4.ext4InodeGetBlocksCount
  dsimp only
  rw [hhuge, hshift, or_shiftLeft _ hlo, blocksOf_hugeFile, blocksOf_blocksCountLo,
    blocksOf_blocksHigh]
  simp only [Nat.shiftLeft_eq]

/-- **The setter on the bytes is the allocator's**, where it does not fail. -/
theorem setBlocksCount_eq (hn : 128 ≤ n) (count : ℕ) :
    if hugeFiles s = false ∧ 2 ^ 32 ≤ count
    then ext4InodeSetBlocksCount s inode count = .error .EINVAL
    else ∃ inode', ext4InodeSetBlocksCount s inode count = .ok inode' ∧
      blocksOf inode' = Ext4.ext4InodeSetBlocksCount sb (blocksOf inode) count := by
  have hclear (count : ℕ) : blocksOf (ext4InodeClearFlag (putBlocks inode count)
        EXT4_INODE_FLAG_HUGE_FILE)
      = { blocksCountLo := count % 2 ^ 32, blocksHigh := count / 2 ^ 32 % 2 ^ 16,
          hugeFile := false } := by
    have hbit := @testBit_clearFlag _ (putBlocks inode count) hn 18
    rw [ext4InodeClearFlag] at hbit ⊢
    rw [blocksOf_putFlags, hbit, blocksOf_putBlocks hn]
    simp
  have hset (count : ℕ) : blocksOf (putBlocks (ext4InodeSetFlag inode EXT4_INODE_FLAG_HUGE_FILE)
        count)
      = { blocksCountLo := count % 2 ^ 32, blocksHigh := count / 2 ^ 32 % 2 ^ 16,
          hugeFile := true } := by
    have hbit := @testBit_setFlag _ inode hn 18
    rw [ext4InodeSetFlag] at hbit ⊢
    rw [blocksOf_putBlocks hn, blocksOf_putFlags, hbit]
    simp
  unfold ext4InodeSetBlocksCount Ext4.ext4InodeSetBlocksCount
  rw [hhuge, hshift]
  by_cases h32 : count ≤ 2 ^ 32 - 1
  · rw [if_neg (by omega), if_pos h32, if_pos h32]
    refine ⟨_, rfl, ?_⟩
    rw [hclear, Nat.mod_eq_of_lt (by omega), Nat.div_eq_of_lt (by omega), Nat.zero_mod]
  · rw [if_neg h32, if_neg h32]
    cases hugeFiles s with
    | false => simp only [Bool.not_false, if_true, true_and, if_pos (by omega : 2 ^ 32 ≤ count)]
    | true =>
        simp only [Bool.not_true, Bool.false_eq_true, if_false, Bool.true_eq_false, false_and]
        by_cases h48 : count ≤ 2 ^ 48 - 1
        · rw [if_pos h48, if_pos h48]
          exact ⟨_, rfl, hclear count⟩
        · rw [if_neg h48, if_neg h48]
          exact ⟨_, rfl, hset _⟩

end Blocks

/-! ## The claim -/

section Exact

variable {n : ℕ} {s : Sblock}

/-- The values that come back: a block count of 48 bits or of whole blocks, and under Linux the
    address of an attribute block of 32 bits. -/
def SplitFieldsFit (s : Sblock) (count acl : ℕ) : Prop :=
  (hugeFiles s = true → count < 2 ^ 48 ∨
      count % 2 ^ blockShift s = 0 ∧ count / 2 ^ blockShift s < 2 ^ 48) ∧
    (creatorOs s = EXT4_SUPERBLOCK_OS_LINUX → acl < 2 ^ 32 ∨ 2 ^ 48 ≤ acl)

instance (s : Sblock) (count acl : ℕ) : Decidable (SplitFieldsFit s count acl) :=
  inferInstanceAs (Decidable (_ ∧ _))

/-- The gate says how long an inode is. -/
theorem inodeSize_ge {dev : ProbeDevice} (h : Accepted dev s) : 128 ≤ rd16 s SBF_INODE_SIZE := by
  have hfault := (probeChecks_accepts h.checks.2).2
  unfold geometryFault at hfault
  simp only [some_else_eq_none] at hfault
  have hsize := hfault.2.1
  omega

/-- **When a block count is kept or refused**, of an inode whose fields are those of the allocator's
    model. -/
theorem setBlocksCount_iff {sb : Sb} (hhuge : sb.hugeFile = hugeFiles s)
    (hshift : hugeShift sb = blockShift s) (hn : 128 ≤ n) (inode : Buf n) (count : ℕ) :
    (∀ inode', ext4InodeSetBlocksCount s inode count = .ok inode' →
        ext4InodeGetBlocksCount s inode' = count) ↔
      (hugeFiles s = true → count < 2 ^ 48 ∨
        count % 2 ^ blockShift s = 0 ∧ count / 2 ^ blockShift s < 2 ^ 48) := by
  have hset := @setBlocksCount_eq _ _ inode _ hhuge hshift hn count
  have hfits := @getBlocksCount_set_iff sb _ (@blocksOf_wf _ inode) count
  unfold BlocksFit at hfits
  rw [hhuge, hshift] at hfits
  by_cases hfails : hugeFiles s = false ∧ 2 ^ 32 ≤ count
  · rw [if_pos hfails] at hset
    rw [hset]
    exact ⟨fun _ h => absurd h (by simp [hfails.1]), fun _ _ hok => by cases hok⟩
  · rw [if_neg hfails] at hset
    obtain ⟨inode', hok, hblocks⟩ := hset
    have hget := @getBlocksCount_eq _ _ inode' _ hhuge hshift
    rw [hblocks] at hget
    rw [hok]
    simp only [Except.ok.injEq, forall_eq']
    rw [hget, hfits]
    cases hf : hugeFiles s with
    | false =>
        have hlt : count < 2 ^ 32 := by
          by_contra hge
          exact hfails ⟨hf, by omega⟩
        simp only [Bool.false_eq_true, false_and, or_false, false_implies, iff_true]
        omega
    | true =>
        simp only [true_and, true_implies]
        omega

/-- A count that can be recorded is not refused. -/
theorem setBlocksCount_ok {sb : Sb} (hhuge : sb.hugeFile = hugeFiles s)
    (hshift : hugeShift sb = blockShift s) (hn : 128 ≤ n) (inode : Buf n) {count : ℕ}
    (hfits : CountFits s count) : ∃ inode', ext4InodeSetBlocksCount s inode count = .ok inode' := by
  have hset := @setBlocksCount_eq _ _ inode _ hhuge hshift hn count
  rw [if_neg] at hset
  · obtain ⟨inode', hok, -⟩ := hset
    exact ⟨inode', hok⟩
  · rintro ⟨hoff, hge⟩
    rcases hfits with h | ⟨hon, -⟩
    · omega
    · exact absurd (hoff.symm.trans hon) (by decide)

theorem setBlocksCount_frame (hn : 128 ≤ n) {inode inode' : Buf n} {count : ℕ}
    (h : ext4InodeSetBlocksCount s inode count = .ok inode') :
    SameOutside [(IN_BLOCKS_COUNT_LO, 4), (IN_BLOCKS_HIGH, 2), (IN_FLAGS, 4)] inode' inode ∧
      ∀ bit ≠ 18, (ext4InodeGetFlags inode').testBit bit
        = (ext4InodeGetFlags inode).testBit bit := by
  have hclear (count : ℕ) :
      SameOutside [(IN_BLOCKS_COUNT_LO, 4), (IN_BLOCKS_HIGH, 2), (IN_FLAGS, 4)]
          (ext4InodeClearFlag (putBlocks inode count) EXT4_INODE_FLAG_HUGE_FILE) inode ∧
        ∀ bit ≠ 18, (ext4InodeGetFlags (ext4InodeClearFlag (putBlocks inode count)
          EXT4_INODE_FLAG_HUGE_FILE)).testBit bit = (ext4InodeGetFlags inode).testBit bit := by
    refine ⟨((SameOutside.refl.putLE (by simp)).putLE (by simp)).putLE (by simp), ?_⟩
    intro bit hbit
    rw [testBit_clearFlag hn, getFlags_putBlocks, decide_eq_true hbit, Bool.and_true]
  have hset (count : ℕ) :
      SameOutside [(IN_BLOCKS_COUNT_LO, 4), (IN_BLOCKS_HIGH, 2), (IN_FLAGS, 4)]
          (putBlocks (ext4InodeSetFlag inode EXT4_INODE_FLAG_HUGE_FILE) count) inode ∧
        ∀ bit ≠ 18, (ext4InodeGetFlags (putBlocks (ext4InodeSetFlag inode
          EXT4_INODE_FLAG_HUGE_FILE) count)).testBit bit
            = (ext4InodeGetFlags inode).testBit bit := by
    refine ⟨((SameOutside.refl.putLE (by simp)).putLE (by simp)).putLE (by simp), ?_⟩
    intro bit hbit
    rw [getFlags_putBlocks, testBit_setFlag hn, decide_eq_false hbit, Bool.or_false]
  unfold ext4InodeSetBlocksCount at h
  split at h
  · obtain rfl := Except.ok.inj h
    exact hclear count
  split at h
  · cases h
  split at h
  · obtain rfl := Except.ok.inj h
    exact hclear count
  · obtain rfl := Except.ok.inj h
    exact hset _

end Exact

end OnMedium

end Ext4
