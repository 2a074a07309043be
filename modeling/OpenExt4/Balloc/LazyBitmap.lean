import OpenExt4.Balloc.Gate

set_option autoImplicit false

/-! # Block bitmaps built on first use

A group whose descriptor says `BLOCK_UNINIT` has no block bitmap yet; `ext4_fs_init_block_bitmap`
makes it from the superblock and the descriptor when the group is first looked at. -/

namespace Ext4

open Bytes Ext4b

variable {n : ℕ}

/-! ## Writes that stay in the buffer -/

/-- `ext4_bmap_bit_set` on a buffer of `n` bytes; a write past its end has no result. -/
def bmapBitSetIn (bmap : Buf n) (i : ℕ) : Option (Buf n) :=
  if i / 8 < n then some (bmapBitSet bmap i) else none

/-- The bits of `bmap` and those that meet `P`, in a bitmap that was written within its buffer. -/
def Adds (bmap : Buf n) (P : ℕ → Prop) (result : Option (Buf n)) : Prop :=
  ∃ bmap', result = some bmap' ∧ ∀ j < 8 * n, bit bmap' j = true ↔ bit bmap j = true ∨ P j

theorem adds_bmapBitSetIn (bmap : Buf n) {i : ℕ} (hi : i < 8 * n) :
    Adds bmap (· = i) (bmapBitSetIn bmap i) := by
  refine ⟨bmapBitSet bmap i, if_pos (by omega), fun j _ => ?_⟩
  rw [bit_bmapBitSet hi, Bool.or_eq_true, decide_eq_true_iff, or_comm]

/-- Steps that each add bits add the bits of all of them. -/
theorem adds_foldlM {α : Type} {step : Buf n → α → Option (Buf n)} {P : α → ℕ → Prop}
    {l : List α} (h : ∀ a ∈ l, ∀ bmap, Adds bmap (P a) (step bmap a)) (bmap : Buf n) :
    Adds bmap (fun j => ∃ a ∈ l, P a j) (l.foldlM step bmap) := by
  induction l generalizing bmap with
  | nil => exact ⟨bmap, rfl, fun j _ => by simp⟩
  | cons a rest ih =>
      obtain ⟨first, hfirst, hbits⟩ := h a List.mem_cons_self bmap
      obtain ⟨last, hlast, hbits'⟩ := ih (fun b hb => h b (List.mem_cons_of_mem _ hb)) first
      refine ⟨last, ?_, fun j hj => ?_⟩
      · rw [List.foldlM_cons, hfirst]
        exact hlast
      · rw [hbits' j hj, hbits j hj, or_assoc]
        simp

/-- One step behind another. -/
theorem Adds.bind {bmap : Buf n} {P Q : ℕ → Prop} {first : Option (Buf n)}
    {next : Buf n → Option (Buf n)} (h : Adds bmap P first) (h' : ∀ bmap, Adds bmap Q (next bmap)) :
    Adds bmap (fun j => P j ∨ Q j) (first >>= next) := by
  obtain ⟨mid, hmid, hbits⟩ := h
  obtain ⟨last, hlast, hbits'⟩ := h' mid
  refine ⟨last, ?_, fun j hj => ?_⟩
  · rw [hmid]
    exact hlast
  · rw [hbits' j hj, hbits j hj, or_assoc]

/-- Bytes of ones have all their bits set. -/
theorem bit_patch_ones {bmap : Buf n} {o len : ℕ} (hn : o + len ≤ n) (j : ℕ) :
    bit (patch bmap o len fun _ => 0xff) j
      = (bit bmap j || decide (8 * o ≤ j ∧ j < 8 * (o + len))) := by
  by_cases hin : o ≤ j / 8 ∧ j / 8 < o + len
  · rw [decide_eq_true (by omega : 8 * o ≤ j ∧ j < 8 * (o + len)), Bool.or_true]
    exact bit_of_full (get8_patch_of_mem (by omega) hin.1 hin.2)
  · rw [bit_patch_of_ne (by omega), decide_eq_false (by omega), Bool.or_false]

/-- `memset` of whole bytes. -/
def memsetIn (bmap : Buf n) (o len : ℕ) : Option (Buf n) :=
  if o + len ≤ n then some (patch bmap o len fun _ => 0xff) else none

/-- `ext4_fs_mark_bitmap_end`. Below zero the first bit it sets lies far outside the buffer. -/
def ext4FsMarkBitmapEnd (startBit : ℤ) (endBit : ℕ) (bmap : Buf n) : Option (Buf n) :=
  if startBit ≥ endBit then some bmap
  else if startBit < 0 then none
  else do
    let start := startBit.toNat
    let i := (start + 7) / 8 * 8
    let bmap ← (List.range' start (i - start)).foldlM bmapBitSetIn bmap
    if i < endBit then memsetIn bmap (i / 8) ((endBit - i) / 8) else pure bmap

/-- The end of the bitmap is marked from the first bit on. -/
theorem adds_ext4FsMarkBitmapEnd (start : ℕ) (bmap : Buf n) :
    Adds bmap (start ≤ ·) (ext4FsMarkBitmapEnd start (8 * n) bmap) := by
  unfold ext4FsMarkBitmapEnd
  by_cases hend : (start : ℤ) ≥ ((8 * n : ℕ) : ℤ)
  · rw [if_pos hend]
    exact ⟨bmap, rfl, fun j hj => by simp; omega⟩
  rw [if_neg hend, if_neg (by omega)]
  have hlt : start < 8 * n := by omega
  dsimp only
  rw [Int.toNat_natCast]
  have hhead : Adds bmap (fun j => ∃ i ∈ List.range' start ((start + 7) / 8 * 8 - start), j = i)
      ((List.range' start ((start + 7) / 8 * 8 - start)).foldlM bmapBitSetIn bmap) := by
    refine adds_foldlM (fun i hi bmap => adds_bmapBitSetIn bmap ?_) bmap
    rw [List.mem_range'_1] at hi
    omega
  have htail (bmap : Buf n) : Adds bmap ((start + 7) / 8 * 8 ≤ ·)
      (if (start + 7) / 8 * 8 < 8 * n then
        memsetIn bmap ((start + 7) / 8 * 8 / 8) ((8 * n - (start + 7) / 8 * 8) / 8)
      else pure bmap) := by
    by_cases hroom : (start + 7) / 8 * 8 < 8 * n
    · rw [if_pos hroom, memsetIn, if_pos (by omega)]
      refine ⟨_, rfl, fun j hj => ?_⟩
      rw [bit_patch_ones (by omega), Bool.or_eq_true, decide_eq_true_iff]
      exact or_congr_right (by omega)
    · rw [if_neg hroom]
      exact ⟨bmap, rfl, fun j hj => by simp; omega⟩
  obtain ⟨bmap', hbmap, hbits⟩ := hhead.bind htail
  refine ⟨bmap', hbmap, fun j hj => ?_⟩
  rw [hbits j hj]
  refine or_congr_right ⟨?_, fun hle => ?_⟩
  · rintro (⟨i, hi, rfl⟩ | hle)
    · exact (List.mem_range'_1.mp hi).1
    · omega
  · by_cases hin : j < (start + 7) / 8 * 8
    · exact .inl ⟨j, List.mem_range'_1.mpr (by omega), rfl⟩
    · exact .inr (by omega)

/-! ## Backups of the superblock -/

/-- `is_power_of`, with a bound on the turns of its loop. -/
def isPowerOf : ℕ → ℕ → ℕ → Bool
  | 0, _, _ => false
  | fuel + 1, a, b =>
      if a < b then false
      else if a = b then true
      else if a % b ≠ 0 then false
      else isPowerOf fuel (a / b) b

/-- `ext4_sb_sparse`. -/
def ext4SbSparse (group : ℕ) : Bool :=
  if group ≤ 1 then true
  else if group % 2 = 0 then false
  else isPowerOf group group 7 || isPowerOf group group 5 || isPowerOf group group 3

theorem isPowerOf_iff {b fuel a : ℕ} (hb : 1 < b) (ha : 0 < a) (hfuel : a ≤ fuel) :
    isPowerOf fuel a b = true ↔ ∃ k, a = b ^ (k + 1) := by
  induction fuel generalizing a with
  | zero => omega
  | succ fuel ih =>
      rw [isPowerOf]
      by_cases hlt : a < b
      · have hnone : ∀ k, a ≠ b ^ (k + 1) := fun k h => by
          have hle : b ≤ b ^ (k + 1) := Nat.le_self_pow (by omega) b
          omega
        simp [hlt, hnone]
      rw [if_neg hlt]
      by_cases heq : a = b
      · rw [if_pos heq]
        exact ⟨fun _ => ⟨0, by simp [heq]⟩, fun _ => rfl⟩
      rw [if_neg heq]
      by_cases hmod : a % b = 0
      · rw [if_neg (not_not.mpr hmod)]
        have hdiv : a = b * (a / b) := (Nat.mul_div_cancel' (Nat.dvd_of_mod_eq_zero hmod)).symm
        have hsmall : a / b < a := Nat.div_lt_self ha hb
        rw [ih (Nat.div_pos (by omega) (by omega)) (by omega)]
        constructor
        · rintro ⟨k, hk⟩
          exact ⟨k + 1, by rw [hdiv, hk, Nat.pow_succ b (k + 1), Nat.mul_comm]⟩
        · rintro ⟨k, hk⟩
          cases k with
          | zero => exact absurd (by simpa using hk) heq
          | succ k =>
              refine ⟨k, ?_⟩
              rw [hk, Nat.pow_succ b (k + 1), Nat.mul_div_cancel _ (by omega)]
      · rw [if_pos hmod]
        refine ⟨nofun, ?_⟩
        rintro ⟨k, rfl⟩
        exact absurd (Nat.mod_eq_zero_of_dvd (Dvd.intro_left (b ^ k) rfl)) hmod

/-- The groups with a backup on a volume with sparse backups. -/
def IsBackupGroup (group : ℕ) : Prop :=
  group ≤ 1 ∨ ∃ k, group = 3 ^ (k + 1) ∨ group = 5 ^ (k + 1) ∨ group = 7 ^ (k + 1)

/-- An odd number has odd powers. -/
theorem odd_pow_mod {b : ℕ} (hb : b % 2 = 1) (k : ℕ) : b ^ k % 2 = 1 := by
  rw [Nat.pow_mod, hb, Nat.one_pow]

theorem ext4SbSparse_iff (group : ℕ) : ext4SbSparse group = true ↔ IsBackupGroup group := by
  unfold ext4SbSparse IsBackupGroup
  by_cases hone : group ≤ 1
  · simp [hone]
  rw [if_neg hone]
  by_cases heven : group % 2 = 0
  · rw [if_pos heven]
    refine ⟨nofun, ?_⟩
    rintro (hle | ⟨k, rfl | rfl | rfl⟩)
    · exact absurd hle hone
    all_goals
      rw [odd_pow_mod (by decide)] at heven
      exact absurd heven (by decide)
  · rw [if_neg heven, Bool.or_eq_true, Bool.or_eq_true,
      isPowerOf_iff (by decide) (by omega) le_rfl, isPowerOf_iff (by decide) (by omega) le_rfl,
      isPowerOf_iff (by decide) (by omega) le_rfl]
    constructor
    · rintro ((⟨k, hk⟩ | ⟨k, hk⟩) | ⟨k, hk⟩)
      · exact .inr ⟨k, .inr (.inr hk)⟩
      · exact .inr ⟨k, .inr (.inl hk)⟩
      · exact .inr ⟨k, .inl hk⟩
    · rintro (hle | ⟨k, hk | hk | hk⟩)
      · exact absurd hle hone
      · exact .inr ⟨k, hk⟩
      · exact .inl (.inr ⟨k, hk⟩)
      · exact .inl (.inl ⟨k, hk⟩)

/-! ## The function -/

def SBF_FIRST_META_BG : ℕ := 0x104

/-- The blocks a group descriptor names, of 64 bits each. -/
structure BgBlocks where
  blockBitmap : ℕ
  inodeBitmap : ℕ
  inodeTable : ℕ
  blockBitmap_lt : blockBitmap < 2 ^ 64
  inodeBitmap_lt : inodeBitmap < 2 ^ 64
  inodeTable_lt : inodeTable < 2 ^ 64

namespace OnMedium

section Source

variable (s : Sblock)

def flexBg : Bool := hasBits s.featureIncompat 0x0200
def metaBg : Bool := hasBits s.featureIncompat 0x0010
def sparseSuper : Bool := hasBits s.featureRoCompat 0x0001
def inodeSize : ℕ := rd16 s SBF_INODE_SIZE
def reservedGdtBlocks : ℕ := rd16 s SBF_RESERVED_GDT

/-- `ext4_sb_get_desc_size`. -/
def ext4SbGetDescSize : ℕ :=
  if rd16 s SBF_DESC_SIZE < EXT4_MIN_BLOCK_GROUP_DESCRIPTOR_SIZE then
    EXT4_MIN_BLOCK_GROUP_DESCRIPTOR_SIZE
  else rd16 s SBF_DESC_SIZE

/-- The descriptors in a block. -/
def dscPerBlock : ℕ := s.blockSize / ext4SbGetDescSize s

/-- `ext4_sb_first_meta_bg`. -/
def ext4SbFirstMetaBg : ℕ := rd32 s SBF_FIRST_META_BG

/-- `ext4_sb_is_super_in_bg`. -/
def ext4SbIsSuperInBg (group : ℕ) : Bool :=
  if sparseSuper s && !ext4SbSparse group then false else true

/-- `ext4_bg_num_gdb_meta`. -/
def ext4BgNumGdbMeta (group : ℕ) : ℕ :=
  let metagroup := group / dscPerBlock s
  let first := mul32 metagroup (dscPerBlock s)
  let last := sub32 (first + dscPerBlock s) 1
  if group = first ∨ group = (first + 1) % 2 ^ 32 ∨ group = last then 1 else 0

/-- `ext4_bg_num_gdb_nometa`. -/
def ext4BgNumGdbNometa (group : ℕ) : ℕ :=
  if !ext4SbIsSuperInBg s group then 0
  else
    let dbCount := sub32 (ext4BlockGroupCnt s + dscPerBlock s) 1 / dscPerBlock s
    if metaBg s then ext4SbFirstMetaBg s else dbCount

/-- `ext4_bg_num_gdb`. -/
def ext4BgNumGdb (group : ℕ) : ℕ :=
  if !metaBg s || group / dscPerBlock s < ext4SbFirstMetaBg s then ext4BgNumGdbNometa s group
  else ext4BgNumGdbMeta s group

/-- `ext4_balloc_get_bgid_of_block`. -/
def ext4BallocGetBgidOfBlock (baddr : ℕ) : ℕ :=
  (if s.firstDataBlock ≠ 0 ∧ baddr ≠ 0 then baddr - 1 else baddr) / s.blocksPerGroup % 2 ^ 32

/-- `ext4_block_in_group`. -/
def ext4BlockInGroup (baddr bgid : ℕ) : Bool := ext4BallocGetBgidOfBlock s baddr = bgid

/-- The number of bits at the head of the bitmap: the superblock copy, the descriptor blocks and the
    blocks reserved for more of these, cut to the group and to the bitmap. -/
def headBits (index : ℕ) : ℕ :=
  let super := if ext4SbIsSuperInBg s index then 1 else 0
  let count := mul32 (ext4SbFirstMetaBg s) (dscPerBlock s)
  let bitMax :=
    if !metaBg s || index < count then
      if super ≠ 0 then ((super + ext4BgNumGdb s index) % 2 ^ 32 + reservedGdtBlocks s) % 2 ^ 32
      else super
    else (super + ext4BgNumGdb s index) % 2 ^ 32
  let bitMax := if s.blocksPerGroup ≠ 0 ∧ bitMax > s.blocksPerGroup then s.blocksPerGroup else bitMax
  if bitMax > 8 * s.blockSize then 8 * s.blockSize else bitMax

/-- The number of blocks in the group. -/
def groupBlocks (index : ℕ) : ℕ :=
  let cnt := ext4BlockGroupCnt s
  if index = sub32 cnt 1 then
    (ext4SbGetBlocksCnt s + 2 ^ 64 - s.firstDataBlock - mul32 s.blocksPerGroup (sub32 cnt 1))
      % 2 ^ 32
  else s.blocksPerGroup

/-- The number of blocks of an inode table, rounded down. -/
def inodeTableBcnt : ℕ := mul32 s.inodesPerGroup (inodeSize s) / s.blockSize

/-- The blocks the loop over the inode table goes through, up to an end of 64 bits. -/
def tableRange (bg : BgBlocks) : List ℕ :=
  List.range' bg.inodeTable ((bg.inodeTable + inodeTableBcnt s) % 2 ^ 64 - bg.inodeTable)

/-- Is the block a group's own, as far as it lies in the group and in its bitmap? -/
def marks (index b : ℕ) : Bool :=
  (!flexBg s || ext4BlockInGroup s b index) && ext4BallocGetBlockOfBgid s index ≤ b &&
    b - ext4BallocGetBlockOfBgid s index < 8 * s.blockSize

/-- Mark one block the descriptor names. -/
def markBlock (index : ℕ) (bmap : Buf s.blockSize) (b : ℕ) : Option (Buf s.blockSize) :=
  if marks s index b then
    bmapBitSetIn bmap ((b - ext4BallocGetBlockOfBgid s index) % 2 ^ 32)
  else some bmap

/-- `uint32_t` passed on as `int`. -/
def toInt32 (v : ℕ) : ℤ := if v < 2 ^ 31 then v else v - 2 ^ 32

/-- `ext4_fs_init_block_bitmap`: the bitmap it writes, if all its writes stay in the buffer. -/
def ext4FsInitBlockBitmap (index : ℕ) (bg : BgBlocks) : Option (Buf s.blockSize) := do
  let bmap ← (List.range (headBits s index)).foldlM bmapBitSetIn (zeros s.blockSize)
  let bmap ← markBlock s index bmap bg.blockBitmap
  let bmap ← markBlock s index bmap bg.inodeBitmap
  let bmap ← (tableRange s bg).foldlM (markBlock s index) bmap
  ext4FsMarkBitmapEnd (toInt32 (groupBlocks s index)) (8 * s.blockSize) bmap

end Source

/-! ## What is written -/

section Written

variable {s : Sblock}

/-- The bit of a block the code marks. -/
def Marked (s : Sblock) (index : ℕ) (bg : BgBlocks) (j : ℕ) : Prop :=
  ∃ b ∈ bg.blockBitmap :: bg.inodeBitmap :: tableRange s bg, marks s index b = true ∧
    j = b - ext4BallocGetBlockOfBgid s index

theorem Gate.blockSize_le (hgate : Gate s) : s.blockSize ≤ 65536 := by
  have hpow : 2 ^ s.logBlockSize ≤ 2 ^ 6 := Nat.pow_le_pow_right (by decide) hgate.log_block_size
  unfold Sblock.blockSize
  omega

/-- A block that is marked is marked in the bitmap. -/
theorem adds_markBlock (hgate : Gate s) (index b : ℕ) (bmap : Buf s.blockSize) :
    Adds bmap (fun j => marks s index b = true ∧ j = b - ext4BallocGetBlockOfBgid s index)
      (markBlock s index bmap b) := by
  have hsize := Gate.blockSize_le hgate
  unfold markBlock
  by_cases hmarks : marks s index b = true
  · rw [if_pos hmarks]
    have hroom : b - ext4BallocGetBlockOfBgid s index < 8 * s.blockSize := by
      simp only [marks, Bool.and_eq_true, decide_eq_true_iff] at hmarks
      exact hmarks.2
    rw [Nat.mod_eq_of_lt (by omega)]
    obtain ⟨bmap', hbmap, hbits⟩ := adds_bmapBitSetIn bmap hroom
    exact ⟨bmap', hbmap, fun j hj => by rw [hbits j hj]; simp [hmarks]⟩
  · rw [if_neg hmarks]
    exact ⟨bmap, rfl, fun j _ => by simp [hmarks]⟩

theorem bit_zeros (j : ℕ) : bit (zeros n) j = false := by
  have hzero : get8 (zeros n) (j / 8) = 0 := by
    unfold get8 zeros
    split <;> rfl
  rw [bit, hzero]
  simp

theorem clamp_le (x m : ℕ) : (if x > m then m else x) ≤ m := by
  split <;> omega

theorem headBits_le (s : Sblock) (index : ℕ) : headBits s index ≤ 8 * s.blockSize := clamp_le _ _

/-- A start that is one below a multiple of `2 ^ 32` counted round. -/
theorem mul32_sub32 (a c : ℕ) (hc : 0 < c) :
    ∃ w, a * (c - 1) = mul32 a (sub32 (c % 2 ^ 32) 1) + w * 2 ^ 32 := by
  unfold mul32 sub32
  have hmod : (c % 2 ^ 32 + 2 ^ 32 - 1) % 2 ^ 32 = (c - 1) % 2 ^ 32 := by omega
  have hsplit := Nat.div_add_mod (c - 1) (2 ^ 32)
  rw [hmod]
  generalize (c - 1) % 2 ^ 32 = r at *
  generalize (c - 1) / 2 ^ 32 = q at *
  have hinner := Nat.div_add_mod (a * r) (2 ^ 32)
  generalize a * r % 2 ^ 32 = x at *
  generalize hy : a * r / 2 ^ 32 = y at *
  refine ⟨a * q + y, ?_⟩
  rw [← hsplit, Nat.mul_add, ← hinner, Nat.add_mul]
  have hcomm : a * (2 ^ 32 * q) = a * q * 2 ^ 32 := by rw [Nat.mul_comm (2 ^ 32), Nat.mul_assoc]
  omega

/-- **No group is given more blocks than fit it**, whatever the high half of the block count. -/
theorem groupBlocks_le (hgate : Gate s) (index : ℕ) : groupBlocks s index ≤ s.blocksPerGroup := by
  have hpos : 0 < s.blocksPerGroup := Nat.lt_of_lt_of_le (by decide) hgate.blocks_per_group_ge
  unfold groupBlocks
  dsimp only
  by_cases hlast : index = sub32 (ext4BlockGroupCnt s) 1
  · rw [if_pos hlast, ext4BlockGroupCnt_onMedium hpos]
    have hcount : 0 < ext4SbGetBlocksCnt s := by
      have hlt := hgate.first_data_block_lt
      rw [ext4SbGetBlocksCnt_eq]
      omega
    have hround := roundUp_bounds (n := ext4SbGetBlocksCnt s) hpos
    have hceil : 0 < (ext4SbGetBlocksCnt s + s.blocksPerGroup - 1) / s.blocksPerGroup :=
      Nat.div_pos (by omega) hpos
    have hfirst : s.firstDataBlock ≤ 1 := by
      rw [hgate.first_data_block]
      split <;> omega
    have hle := hgate.blocksPerGroup_lt
    generalize (ext4SbGetBlocksCnt s + s.blocksPerGroup - 1) / s.blocksPerGroup = c at *
    obtain ⟨w, hw⟩ := mul32_sub32 s.blocksPerGroup c hceil
    have hsplit : c * s.blocksPerGroup = s.blocksPerGroup * (c - 1) + s.blocksPerGroup := by
      rw [← Nat.mul_succ, Nat.succ_eq_add_one, Nat.sub_add_cancel hceil, Nat.mul_comm]
    have hmul : mul32 s.blocksPerGroup (sub32 (c % 2 ^ 32) 1) < 2 ^ 32 := Nat.mod_lt _ (by decide)
    generalize mul32 s.blocksPerGroup (sub32 (c % 2 ^ 32) 1) = x at *
    generalize s.blocksPerGroup * (c - 1) = y at *
    generalize c * s.blocksPerGroup = z at *
    omega
  · rw [if_neg hlast]

/-- **What the function writes**, always inside the bitmap: the head, the blocks of the descriptor
    that it marks, and everything behind the group. -/
theorem ext4FsInitBlockBitmap_bits (hgate : Gate s) (index : ℕ) (bg : BgBlocks) :
    ∃ bmap, ext4FsInitBlockBitmap s index bg = some bmap ∧ ∀ j < 8 * s.blockSize,
      bit bmap j = true ↔ j < headBits s index ∨ Marked s index bg j ∨ groupBlocks s index ≤ j := by
  have hle := groupBlocks_le hgate index
  have hbpg := hgate.blocksPerGroup_lt
  have hhead : Adds (zeros s.blockSize) (fun j => ∃ i ∈ List.range (headBits s index), j = i)
      ((List.range (headBits s index)).foldlM bmapBitSetIn (zeros s.blockSize)) := by
    refine adds_foldlM (fun i hi bmap => adds_bmapBitSetIn bmap ?_) _
    exact (List.mem_range.mp hi).trans_le (headBits_le s index)
  have hint : toInt32 (groupBlocks s index) = (groupBlocks s index : ℕ) := by
    unfold toInt32
    rw [if_pos (by omega)]
  have htable (bmap : Buf s.blockSize) := adds_foldlM (l := tableRange s bg)
    (fun b _ bmap => adds_markBlock hgate index b bmap) bmap
  obtain ⟨bmap, hbmap, hbits⟩ := hhead.bind fun bmap =>
    (adds_markBlock hgate index bg.blockBitmap bmap).bind fun bmap =>
      (adds_markBlock hgate index bg.inodeBitmap bmap).bind fun bmap =>
        (htable bmap).bind fun bmap => adds_ext4FsMarkBitmapEnd (groupBlocks s index) bmap
  refine ⟨bmap, ?_, fun j hj => ?_⟩
  · rw [← hbmap, ext4FsInitBlockBitmap, hint]
  · rw [hbits j hj, bit_zeros]
    simp only [Bool.false_eq_true, false_or, List.mem_range, exists_eq_right', Marked,
      List.mem_cons, exists_eq_or_imp, or_assoc]

end Written

/-! ## What should be written -/

section Exact

variable {s : Sblock} {g : ℕ} {bg : BgBlocks}

/-- The first block of group `g`. -/
def firstBlock (s : Sblock) (g : ℕ) : ℕ := s.firstDataBlock + g * s.blocksPerGroup

/-- The blocks group `g` really has. -/
def realBlocks (s : Sblock) (g : ℕ) : ℕ :=
  min s.blocksPerGroup (s.blockCount - s.firstDataBlock - g * s.blocksPerGroup)

/-- Group `g` has a copy of the superblock. -/
def HasBackup (s : Sblock) (g : ℕ) : Prop := sparseSuper s = true → IsBackupGroup g

/-- The blocks that hold the descriptors of `groups` groups. -/
def descBlocks (s : Sblock) (groups : ℕ) : ℕ := (groups + dscPerBlock s - 1) / dscPerBlock s

/-- The superblock copy, `desc` descriptor blocks and the blocks reserved for more of these. -/
def InHead (s : Sblock) (g desc j : ℕ) : Prop :=
  HasBackup s g ∧ j < 1 + desc + reservedGdtBlocks s

/-- A bitmap of the group, or one of the first `table` blocks of its inode table. -/
def IsOwn (bg : BgBlocks) (table b : ℕ) : Prop :=
  b = bg.blockBitmap ∨ b = bg.inodeBitmap ∨ (bg.inodeTable ≤ b ∧ b < bg.inodeTable + table)

/-- The number of blocks of an inode table. -/
def tableBlocks (s : Sblock) : ℕ :=
  (s.inodesPerGroup * inodeSize s + s.blockSize - 1) / s.blockSize

/-- Bit `j` of the bitmap of group `g` stands for a block its metadata use, or for none. -/
def InUse (s : Sblock) (g : ℕ) (bg : BgBlocks) (j : ℕ) : Prop :=
  InHead s g (descBlocks s s.probedGroups) j ∨ IsOwn bg (tableBlocks s) (firstBlock s g + j) ∨
    realBlocks s g ≤ j

/-- The bitmap written for the group is exact. -/
def BitmapExact (s : Sblock) (g : ℕ) (bg : BgBlocks) : Prop :=
  ∃ bmap, ext4FsInitBlockBitmap s g bg = some bmap ∧
    ∀ j < 8 * s.blockSize, bit bmap j = true ↔ InUse s g bg j

/-! ## Where the counts differ -/

/-- The high half of the block count is one the group count does not show. -/
def CountsAgree (s : Sblock) : Prop := s.is64bit = true ∨ s.blocksCountHi % s.blocksPerGroup = 0

/-- Counting the boot block in makes one group more. -/
def Phantom (s : Sblock) : Prop :=
  s.firstDataBlock ≠ 0 ∧ (s.blockCount - s.firstDataBlock) % s.blocksPerGroup = 0

instance (s : Sblock) : Decidable (CountsAgree s) := inferInstanceAs (Decidable (_ ∨ _))

instance (s : Sblock) : Decidable (Phantom s) := inferInstanceAs (Decidable (_ ∧ _))

/-- The groups with the boot block counted in. -/
def countedGroups (s : Sblock) : ℕ := s.probedGroups + if Phantom s then 1 else 0

/-- A descriptor block that is only there for a group too many is used by the group's own metadata,
    or does not exist. -/
def HeadCovered (s : Sblock) (g : ℕ) (bg : BgBlocks) : Prop :=
  ∀ j, InHead s g (descBlocks s (countedGroups s)) j →
    ¬ InHead s g (descBlocks s s.probedGroups) j →
    IsOwn bg (tableBlocks s) (firstBlock s g + j) ∨ realBlocks s g ≤ j

/-- The blocks of the inode table behind the size of the table rounded down, in 32 bits, do not lie
    in the group, or else in its head or on a bitmap. -/
def TableCovered (s : Sblock) (g : ℕ) (bg : BgBlocks) : Prop :=
  ∀ k, s.inodesPerGroup * inodeSize s % 2 ^ 32 / s.blockSize ≤ k → k < tableBlocks s →
    ∀ j < realBlocks s g, bg.inodeTable + k = firstBlock s g + j →
      InHead s g (descBlocks s (countedGroups s)) j ∨ firstBlock s g + j = bg.blockBitmap ∨
        firstBlock s g + j = bg.inodeBitmap

/-! ## The numbers of the source -/

theorem metaBg_of_accepted {dev : ProbeDevice} (h : Accepted dev s) : metaBg s = false := by
  have hnone := h.supported
  have hmask : 0xFFFFFFFF ^^^ supportedMask .incompat
      = (0xFFFFFFFF ^^^ supportedMask .incompat) ||| 0x10 := by decide
  unfold unsupportedBits at hnone
  rw [hmask, Nat.and_or_distrib_left] at hnone
  have hbit : s.featureIncompat &&& 0x10 = 0 := (Nat.or_eq_zero_iff.mp hnone).2
  simp [metaBg, hasBits, hbit]

/-- With or without a boot block, the source counts the groups of the volume or one more. -/
theorem blockGroupCnt_eq (hgate : Gate s) (hcounts : CountsAgree s) :
    ext4BlockGroupCnt s = countedGroups s := by
  have hpos : 0 < s.blocksPerGroup := Nat.lt_of_lt_of_le (by decide) hgate.blocks_per_group_ge
  have hmodel := Ext4.ext4BlockGroupCnt_eq (Sb.ofGate hgate 32 false)
  have hceil : Ext4.ext4BlockGroupCnt (Sb.ofGate hgate 32 false)
      = (s.blockCount + s.blocksPerGroup - 1) / s.blocksPerGroup % 2 ^ 32 := by
    unfold Ext4.ext4BlockGroupCnt
    rw [Nat.mod_add_mod]
    exact congrArg (· % 2 ^ 32) (div_add_rem hpos)
  rw [hceil] at hmodel
  have htotal : ∃ k, ext4SbGetBlocksCnt s = s.blockCount + k * 2 ^ 32 * s.blocksPerGroup := by
    have heq := ext4SbGetBlocksCnt_eq s
    by_cases h64 : s.is64bit = true
    · exact ⟨0, by simpa [h64] using heq⟩
    · obtain ⟨k, hk⟩ := Nat.dvd_of_mod_eq_zero (hcounts.resolve_left h64)
      rw [if_neg h64, hk, Nat.mul_comm s.blocksPerGroup, Nat.mul_right_comm] at heq
      exact ⟨k, heq⟩
  obtain ⟨k, htotal⟩ := htotal
  have hsum : s.blockCount + k * 2 ^ 32 * s.blocksPerGroup + s.blocksPerGroup - 1
      = s.blockCount + s.blocksPerGroup - 1 + k * 2 ^ 32 * s.blocksPerGroup := by omega
  rw [ext4BlockGroupCnt_onMedium hpos, htotal, hsum, Nat.add_mul_div_right _ _ hpos,
    Nat.add_mul_mod_self_right]
  exact hmodel

/-- The source sizes the group right. -/
theorem groupBlocks_eq (hgate : Gate s) (hcounts : CountsAgree s) (hg : g < s.probedGroups) :
    groupBlocks s g = realBlocks s g := by
  have hpos : 0 < s.blocksPerGroup := Nat.lt_of_lt_of_le (by decide) hgate.blocks_per_group_ge
  have hbpg := hgate.blocksPerGroup_lt
  have hlt := hgate.probedGroups_lt
  have hfirst := hgate.first_data_block_lt
  have hround := roundUp_bounds (n := s.blockCount - s.firstDataBlock) hpos
  have htotal := ext4SbGetBlocksCnt_eq s
  have hcnt := blockGroupCnt_eq hgate hcounts
  have hdef : (s.blockCount - s.firstDataBlock + s.blocksPerGroup - 1) / s.blocksPerGroup
      = s.probedGroups := rfl
  rw [hdef] at hround
  unfold countedGroups at hcnt
  unfold groupBlocks realBlocks
  dsimp only
  have hcntLt : ext4BlockGroupCnt s < 2 ^ 32 := by split at hcnt <;> omega
  rw [sub32_one (by omega) hcntLt]
  by_cases hlast : g = ext4BlockGroupCnt s - 1
  · rw [if_pos hlast, ← hlast, mul32, Nat.mul_comm s.blocksPerGroup]
    have hG : s.probedGroups = g + 1 := by split at hcnt <;> omega
    rw [hG, Nat.add_mul, Nat.one_mul] at hround
    generalize g * s.blocksPerGroup = y at *
    split at htotal <;> omega
  · rw [if_neg hlast]
    have hfull : (g + 1) * s.blocksPerGroup ≤ s.blockCount - s.firstDataBlock := by
      by_cases hphantom : Phantom s
      · obtain ⟨q, hq⟩ := Nat.dvd_of_mod_eq_zero hphantom.2
        rw [hq, Nat.mul_comm s.blocksPerGroup] at hround ⊢
        have hle : q ≤ s.probedGroups := Nat.le_of_mul_le_mul_right hround.1 hpos
        have hGq : s.probedGroups < q + 1 := by
          refine Nat.lt_of_mul_lt_mul_right (a := s.blocksPerGroup) ?_
          rw [Nat.add_mul, Nat.one_mul]
          exact hround.2
        exact Nat.mul_le_mul_right _ (by omega)
      · rw [if_neg hphantom] at hcnt
        have hle : (g + 1 + 1) * s.blocksPerGroup ≤ s.probedGroups * s.blocksPerGroup :=
          Nat.mul_le_mul_right _ (by omega)
        rw [Nat.add_mul (g + 1), Nat.one_mul] at hle
        omega
    rw [Nat.add_mul, Nat.one_mul] at hfull
    omega

theorem hasBackup_iff (s : Sblock) (g : ℕ) : ext4SbIsSuperInBg s g = true ↔ HasBackup s g := by
  unfold ext4SbIsSuperInBg HasBackup
  rw [← ext4SbSparse_iff]
  cases sparseSuper s <;> cases ext4SbSparse g <;> simp

theorem reservedGdtBlocks_lt (s : Sblock) : reservedGdtBlocks s < 2 ^ 16 := rd16_lt _ _

theorem countedGroups_bounds (hgate : Gate s) :
    0 < countedGroups s ∧ countedGroups s ≤ 2 ^ 29 := by
  have hpos := hgate.probedGroups_pos
  have hlt := hgate.probedGroups_lt
  unfold countedGroups
  split <;> omega

/-- The head of the bitmap, as far as the group goes. -/
theorem lt_headBits_iff (hgate : Gate s) (hmeta : metaBg s = false) (hcounts : CountsAgree s)
    {j : ℕ} (hj : j < s.blocksPerGroup) :
    j < headBits s g ↔ InHead s g (descBlocks s (countedGroups s)) j := by
  have hbits := hgate.blocks_per_group_le
  have hsize := Gate.blockSize_le hgate
  have hreserved := reservedGdtBlocks_lt s
  obtain ⟨hpos, hlt⟩ := countedGroups_bounds hgate
  have hdsc : dscPerBlock s ≤ 65536 := (Nat.div_le_self _ _).trans hsize
  have hdesc : descBlocks s (countedGroups s) ≤ 2 ^ 30 :=
    (Nat.div_le_self _ _).trans (by omega)
  have hcut : sub32 (countedGroups s + dscPerBlock s) 1 = countedGroups s + dscPerBlock s - 1 := by
    unfold sub32
    omega
  unfold headBits InHead
  rw [← hasBackup_iff]
  cases hsuper : ext4SbIsSuperInBg s g with
  | false => simp [hmeta]
  | true =>
      have hgdb : ext4BgNumGdb s g = descBlocks s (countedGroups s) := by
        simp only [ext4BgNumGdb, ext4BgNumGdbNometa, hmeta, hsuper, Bool.not_false, Bool.true_or,
          if_true, Bool.not_true, Bool.false_eq_true, if_false, blockGroupCnt_eq hgate hcounts, hcut]
        rfl
      simp only [hmeta, hgdb, Bool.not_false, Bool.true_or, if_true, ne_eq, one_ne_zero,
        not_false_eq_true, true_and]
      split_ifs <;> omega

/-- A block of the volume in its group. -/
theorem blockInGroup_firstBlock (hgate : Gate s) (hg : g < s.probedGroups) {j : ℕ}
    (hj : j < s.blocksPerGroup) : ext4BlockInGroup s (firstBlock s g + j) g = true := by
  have hlt := hgate.probedGroups_lt
  have hfirst := hgate.first_data_block
  have hstep : (if s.firstDataBlock ≠ 0 ∧ firstBlock s g + j ≠ 0 then firstBlock s g + j - 1
      else firstBlock s g + j) = s.blocksPerGroup * g + j := by
    unfold firstBlock
    rw [Nat.mul_comm g]
    split at hfirst <;> split_ifs <;> omega
  rw [ext4BlockInGroup, ext4BallocGetBgidOfBlock, hstep, Nat.mul_add_div (by omega),
    Nat.div_eq_of_lt hj, Nat.add_zero, Nat.mod_eq_of_lt (by omega)]
  exact decide_eq_true rfl

/-- The blocks the source marks: both bitmaps and the blocks of the inode table it counts. -/
theorem marked_iff (hgate : Gate s) (hg : g < s.probedGroups) (hstart : g * s.blocksPerGroup < 2 ^ 32)
    (bg : BgBlocks) {j : ℕ} (hj : j < realBlocks s g) :
    Marked s g bg j ↔ IsOwn bg (s.inodesPerGroup * inodeSize s % 2 ^ 32 / s.blockSize)
      (firstBlock s g + j) := by
  have hbits := hgate.blocks_per_group_le
  have hjbpg : j < s.blocksPerGroup := hj.trans_le (min_le_left _ _)
  have hfirst : ext4BallocGetBlockOfBgid s g = firstBlock s g := by
    have hzero := hgate.first_data_block
    unfold ext4BallocGetBlockOfBgid firstBlock
    rw [mul32, Nat.mod_eq_of_lt hstart]
    split at hzero <;> simp [hzero]
  have hmarks : marks s g (firstBlock s g + j) = true := by
    have hin := blockInGroup_firstBlock hgate hg hjbpg
    unfold marks
    rw [hfirst, hin]
    simp only [Bool.or_true, Bool.true_and, Bool.and_eq_true, decide_eq_true_iff]
    omega
  -- the end of the inode table lies past the volume where it does not fit 64 bits
  have hrange : firstBlock s g + j ∈ tableRange s bg ↔
      bg.inodeTable ≤ firstBlock s g + j ∧ firstBlock s g + j
        < bg.inodeTable + s.inodesPerGroup * inodeSize s % 2 ^ 32 / s.blockSize := by
    have hvolume : firstBlock s g + j < 2 ^ 63 := by
      have hfits := hgate.fits_device
      have hblock : s.blockCount * 1024 ≤ s.blockCount * s.blockSize := by
        refine Nat.mul_le_mul_left _ ?_
        have := Nat.two_pow_pos s.logBlockSize
        unfold Sblock.blockSize
        omega
      unfold realBlocks at hj
      unfold firstBlock
      omega
    have hcnt : inodeTableBcnt s ≤ 2 ^ 32 :=
      (Nat.div_le_self _ _).trans (Nat.mod_lt _ (by decide)).le
    have htable := bg.inodeTable_lt
    have hdef : inodeTableBcnt s = s.inodesPerGroup * inodeSize s % 2 ^ 32 / s.blockSize := rfl
    rw [tableRange, List.mem_range'_1, ← hdef]
    omega
  unfold Marked IsOwn
  rw [hfirst, ← hrange]
  constructor
  · rintro ⟨b, hmem, hb, rfl⟩
    have hle : firstBlock s g ≤ b := by
      simp only [marks, hfirst, Bool.and_eq_true, decide_eq_true_iff] at hb
      exact hb.1.2
    rw [Nat.add_sub_cancel' hle]
    simpa using hmem
  · intro hown
    exact ⟨firstBlock s g + j, by simpa using hown, hmarks, by omega⟩

/-- What is written, where the group starts where the source has it. -/
theorem exists_bitmap (hgate : Gate s) (hmeta : metaBg s = false) (hcounts : CountsAgree s)
    (hg : g < s.probedGroups) (hstart : g * s.blocksPerGroup < 2 ^ 32) (bg : BgBlocks) :
    ∃ bmap, ext4FsInitBlockBitmap s g bg = some bmap ∧ ∀ j < 8 * s.blockSize, bit bmap j = true ↔
      InHead s g (descBlocks s (countedGroups s)) j ∨
        IsOwn bg (s.inodesPerGroup * inodeSize s % 2 ^ 32 / s.blockSize) (firstBlock s g + j) ∨
        realBlocks s g ≤ j := by
  obtain ⟨bmap, hbmap, hbits⟩ := ext4FsInitBlockBitmap_bits hgate g bg
  refine ⟨bmap, hbmap, fun j hj => ?_⟩
  rw [hbits j hj, groupBlocks_eq hgate hcounts hg]
  by_cases hpast : realBlocks s g ≤ j
  · simp [hpast]
  · have hin : j < realBlocks s g := by omega
    rw [lt_headBits_iff hgate hmeta hcounts (hin.trans_le (min_le_left _ _)),
      marked_iff hgate hg hstart bg hin]

/-- **The bitmap of a group built on first use.** On a volume the probe accepts, whatever the
    descriptor names, no write leaves the buffer. Where the source reads the block count like the
    probe and the group starts below block `2 ^ 32`, the bitmap is exact if and only if the boot
    block counted in and the inode table rounded down leave no block wrong. -/
theorem ext4FsInitBlockBitmap_exact_iff {dev : ProbeDevice} (haccepted : Accepted dev s)
    (hg : g < s.probedGroups) (bg : BgBlocks) :
    (∃ bmap, ext4FsInitBlockBitmap s g bg = some bmap) ∧
      (CountsAgree s → g * s.blocksPerGroup < 2 ^ 32 →
        (BitmapExact s g bg ↔ HeadCovered s g bg ∧ TableCovered s g bg)) := by
  have hgate := haccepted.gate
  constructor
  · obtain ⟨bmap, hbmap, -⟩ := ext4FsInitBlockBitmap_bits hgate g bg
    exact ⟨bmap, hbmap⟩
  intro hcounts hstart
  obtain ⟨bmap, hbmap, hbits⟩ :=
    exists_bitmap hgate (metaBg_of_accepted haccepted) hcounts hg hstart bg
  have hreal : realBlocks s g ≤ 8 * s.blockSize :=
    (min_le_left _ _).trans hgate.blocks_per_group_le
  constructor
  · rintro ⟨bmap', hbmap', hexact⟩
    obtain rfl := Option.some.inj (hbmap.symm.trans hbmap')
    have hsame (j : ℕ) (hj : j < realBlocks s g) :=
      (hbits j (hj.trans_le hreal)).symm.trans (hexact j (hj.trans_le hreal))
    constructor
    · intro j hcounted hnot
      by_cases hpast : realBlocks s g ≤ j
      · exact .inr hpast
      · exact ((hsame j (by omega)).mp (.inl hcounted)).resolve_left hnot
    · intro k hlo hhi j hj hblock
      have hown : IsOwn bg (tableBlocks s) (firstBlock s g + j) := .inr (.inr (by omega))
      rcases (hsame j hj).mpr (.inr (.inl hown)) with hhead | (hbmp | hinode | htable) | hpast
      · exact .inl hhead
      · exact .inr (.inl hbmp)
      · exact .inr (.inr hinode)
      · omega
      · omega
  · rintro ⟨hheadCovered, htableCovered⟩
    refine ⟨bmap, hbmap, fun j hj => (hbits j hj).trans ?_⟩
    have hle : s.inodesPerGroup * inodeSize s % 2 ^ 32 / s.blockSize ≤ tableBlocks s :=
      Nat.div_le_div_right (by have := Nat.mod_le (s.inodesPerGroup * inodeSize s) (2 ^ 32); omega)
    have hmore : descBlocks s s.probedGroups ≤ descBlocks s (countedGroups s) :=
      Nat.div_le_div_right (by unfold countedGroups; omega)
    constructor
    · rintro (hhead | hown | hpast)
      · by_cases hspec : InHead s g (descBlocks s s.probedGroups) j
        · exact .inl hspec
        · exact .inr (hheadCovered j hhead hspec)
      · refine .inr (.inl ?_)
        rcases hown with hbmp | hinode | htable
        · exact .inl hbmp
        · exact .inr (.inl hinode)
        · exact .inr (.inr (by omega))
      · exact .inr (.inr hpast)
    · rintro (hhead | hown | hpast)
      · exact .inl ⟨hhead.1, by have := hhead.2; omega⟩
      · by_cases hpast : realBlocks s g ≤ j
        · exact .inr (.inr hpast)
        rcases hown with hbmp | hinode | htable
        · exact .inr (.inl (.inl hbmp))
        · exact .inr (.inl (.inr (.inl hinode)))
        · by_cases hcounted : firstBlock s g + j < bg.inodeTable
              + s.inodesPerGroup * inodeSize s % 2 ^ 32 / s.blockSize
          · exact .inr (.inl (.inr (.inr ⟨htable.1, hcounted⟩)))
          · rcases htableCovered (firstBlock s g + j - bg.inodeTable) (by omega) (by omega) j
              (by omega) (by omega) with hhead | hbmp | hinode
            · exact .inl hhead
            · exact .inr (.inl (.inl hbmp))
            · exact .inr (.inl (.inr (.inl hinode)))
      · exact .inr (.inr hpast)

end Exact

/-! A group whose eight inodes fill a quarter of a block, and one whose inodes fill a block. -/

def fullTableSb : Sblock := sbOf
  [(0x000, 32), (0x005, 0x20), (0x018, 2), (0x021, 0x80), (0x028, 32), (0x038, 0x53),
    (0x039, 0xEF), (0x058, 128)]

def firstGroup : BgBlocks := ⟨2, 3, 4, by decide, by decide, by decide⟩

/-- The one block of the inode table is left out of the bitmap. -/
theorem ext4FsInitBlockBitmap_shortTable :
    Accepted ⟨8192, 4096, some plainSb⟩ plainSb ∧ 0 < plainSb.probedGroups ∧
      ¬ BitmapExact plainSb 0 firstGroup := by
  have haccepted : Accepted ⟨8192, 4096, some plainSb⟩ plainSb := ⟨rfl, _, rfl, by decide⟩
  refine ⟨haccepted, by decide, ?_⟩
  rintro ⟨bmap, hbmap, hexact⟩
  obtain ⟨bmap', hbmap', hbits⟩ := ext4FsInitBlockBitmap_bits haccepted.gate 0 firstGroup
  obtain rfl := Option.some.inj (hbmap.symm.trans hbmap')
  have hused : InUse plainSb 0 firstGroup 4 := .inr (.inl (.inr (.inr (by decide))))
  have hset := (hbits 4 (by decide)).mp ((hexact 4 (by decide)).mpr hused)
  rcases hset with hhead | ⟨b, hmem, -, hb⟩ | hpast
  · exact absurd hhead (by decide)
  · have hrange : tableRange plainSb firstGroup = [] := by decide
    have hfirst : ext4BallocGetBlockOfBgid plainSb 0 = 0 := by decide
    rw [hrange] at hmem
    simp only [firstGroup, List.mem_cons, List.not_mem_nil, or_false] at hmem
    omega
  · exact absurd hpast (by decide)

theorem ext4FsInitBlockBitmap_exact_fullTable :
    BitmapExact fullTableSb 0 firstGroup := by
  have haccepted : Accepted ⟨8192, 4096, some fullTableSb⟩ fullTableSb := ⟨rfl, _, rfl, by decide⟩
  refine ((ext4FsInitBlockBitmap_exact_iff haccepted (by decide) firstGroup).2 (by decide)
    (by decide)).mpr ⟨?_, ?_⟩
  · have hcounts : countedGroups fullTableSb = fullTableSb.probedGroups := by decide
    intro j hhead hnot
    rw [hcounts] at hhead
    exact absurd hhead hnot
  · intro k hlo hhi
    have hone : tableBlocks fullTableSb = 1 := by decide
    have hcounted : fullTableSb.inodesPerGroup * inodeSize fullTableSb % 2 ^ 32
        / fullTableSb.blockSize = 1 := by decide
    omega

end OnMedium

end Ext4
