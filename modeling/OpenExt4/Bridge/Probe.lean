import OpenExt4.Journal.Format

set_option autoImplicit false

/-! # The probe

`ext4b_probe`: what the bridge reads of a superblock before it mounts the volume, the policy on
feature bits, and the gate on the numbers the driver computes addresses from. -/

namespace Ext4b

open Bytes

/-! ## The superblock -/

def SB_SIZE : ℕ := 1024

def SBF_INODES_COUNT : ℕ := 0x000
def SBF_BLOCKS_COUNT_LO : ℕ := 0x004
def SBF_FREE_BLOCKS_LO : ℕ := 0x00C
def SBF_FREE_INODES : ℕ := 0x010
def SBF_FIRST_DATA_BLOCK : ℕ := 0x014
def SBF_LOG_BLOCK_SIZE : ℕ := 0x018
def SBF_BLOCKS_PER_GROUP : ℕ := 0x020
def SBF_INODES_PER_GROUP : ℕ := 0x028
def SBF_MAGIC : ℕ := 0x038
def SBF_REV_LEVEL : ℕ := 0x04C
def SBF_FIRST_INO : ℕ := 0x054
def SBF_INODE_SIZE : ℕ := 0x058
def SBF_FEATURE_COMPAT : ℕ := 0x05C
def SBF_FEATURE_INCOMPAT : ℕ := 0x060
def SBF_FEATURE_RO_COMPAT : ℕ := 0x064
def SBF_RESERVED_GDT : ℕ := 0x0CE
def SBF_JOURNAL_INUM : ℕ := 0x0E0
def SBF_DESC_SIZE : ℕ := 0x0FE
def SBF_BLOCKS_COUNT_HI : ℕ := 0x150
def SBF_FREE_BLOCKS_HI : ℕ := 0x158
def SBF_LOG_GROUPS_PER_FLEX : ℕ := 0x174
def SBF_CHECKSUM : ℕ := 0x3FC

def EXT_MAGIC : ℕ := 0xEF53

/-- The superblock as it lies on the medium. -/
abbrev Sblock : Type := Buf SB_SIZE

/-- A 16-bit field, low byte first. -/
def rd16 (p : Sblock) (off : ℕ) : ℕ := (get8 p off).toNat + (get8 p (off + 1)).toNat * 2 ^ 8

/-- A 32-bit field, low byte first. -/
def rd32 (p : Sblock) (off : ℕ) : ℕ := rd16 p off + rd16 p (off + 2) * 2 ^ 16

theorem rd16_lt (p : Sblock) (off : ℕ) : rd16 p off < 2 ^ 16 := by
  have hlo := (get8 p off).toNat_lt
  have hhi := (get8 p (off + 1)).toNat_lt
  unfold rd16
  omega

theorem rd32_lt (p : Sblock) (off : ℕ) : rd32 p off < 2 ^ 32 := by
  have hlo := rd16_lt p off
  have hhi := rd16_lt p (off + 2)
  unfold rd32
  omega

/-- Is one of the bits of `mask` set in `bits`? -/
def hasBits (bits mask : ℕ) : Bool := bits &&& mask != 0

namespace Sblock

variable (s : Sblock)

def logBlockSize : ℕ := rd32 s SBF_LOG_BLOCK_SIZE
def blockSize : ℕ := 1024 * 2 ^ s.logBlockSize
def featureCompat : ℕ := rd32 s SBF_FEATURE_COMPAT
def featureIncompat : ℕ := rd32 s SBF_FEATURE_INCOMPAT
def featureRoCompat : ℕ := rd32 s SBF_FEATURE_RO_COMPAT
def firstDataBlock : ℕ := rd32 s SBF_FIRST_DATA_BLOCK
def blocksPerGroup : ℕ := rd32 s SBF_BLOCKS_PER_GROUP
def inodesPerGroup : ℕ := rd32 s SBF_INODES_PER_GROUP
def inodesCount : ℕ := rd32 s SBF_INODES_COUNT
def blocksCountLo : ℕ := rd32 s SBF_BLOCKS_COUNT_LO
def blocksCountHi : ℕ := rd32 s SBF_BLOCKS_COUNT_HI

/-- The volume counts its blocks in 64 bits. -/
def is64bit : Bool := hasBits s.featureIncompat 0x0080

/-- The block count of the probe, which reads the high half where the feature is on. -/
def blockCount : ℕ := s.blocksCountLo + if s.is64bit then s.blocksCountHi * 2 ^ 32 else 0

def freeBlocks : ℕ :=
  rd32 s SBF_FREE_BLOCKS_LO + if s.is64bit then rd32 s SBF_FREE_BLOCKS_HI * 2 ^ 32 else 0

/-- The number of groups the probe validates. -/
def probedGroups : ℕ :=
  (s.blockCount - s.firstDataBlock + s.blocksPerGroup - 1) / s.blocksPerGroup

end Sblock

/-! ## The policy on features -/

inductive FeatureSet where
  | incompat
  | roCompat
  deriving DecidableEq, Repr

/-- `ext4b_policy`. -/
inductive Policy where
  | supported
  | downgraded
  | refused
  deriving DecidableEq, Repr

/-- `ext4b_feature_rule`, without the name the tools print. -/
structure FeatureRule where
  set : FeatureSet
  bit : ℕ
  policy : Policy
  why : String

/-- `ext4b_feature_rules`. -/
def featureRules : List FeatureRule := [
  ⟨.incompat, 0x0001, .refused, "filesystem uses compression"⟩,
  ⟨.incompat, 0x0002, .supported, ""⟩,
  ⟨.incompat, 0x0004, .supported, ""⟩,
  ⟨.incompat, 0x0008, .refused, "this is an external journal device"⟩,
  ⟨.incompat, 0x0010, .refused,
    "filesystem uses meta_bg descriptor placement, which this driver reads incorrectly"⟩,
  ⟨.incompat, 0x0040, .supported, ""⟩,
  ⟨.incompat, 0x0080, .supported, ""⟩,
  ⟨.incompat, 0x0100, .supported, ""⟩,
  ⟨.incompat, 0x0200, .supported, ""⟩,
  ⟨.incompat, 0x0400, .refused, "filesystem uses EA inodes"⟩,
  ⟨.incompat, 0x2000, .supported, ""⟩,
  ⟨.incompat, 0x4000, .refused, "filesystem uses large directories"⟩,
  ⟨.incompat, 0x8000, .refused, "filesystem uses inline data"⟩,
  ⟨.incompat, 0x10000, .refused, "filesystem uses encryption (fscrypt)"⟩,
  ⟨.incompat, 0x20000, .refused, "filesystem uses case-folding"⟩,
  ⟨.roCompat, 0x0001, .supported, ""⟩,
  ⟨.roCompat, 0x0002, .supported, ""⟩,
  ⟨.roCompat, 0x0008, .supported, ""⟩,
  ⟨.roCompat, 0x0010, .supported, ""⟩,
  ⟨.roCompat, 0x0020, .supported, ""⟩,
  ⟨.roCompat, 0x0040, .supported, ""⟩,
  ⟨.roCompat, 0x0100, .downgraded, "filesystem uses quotas"⟩,
  ⟨.roCompat, 0x0200, .refused,
    "bigalloc (clustered allocation) is not supported by this driver; the volume itself is fine"⟩,
  ⟨.roCompat, 0x0400, .supported, ""⟩,
  ⟨.roCompat, 0x2000, .downgraded, "filesystem uses project quotas"⟩,
  ⟨.roCompat, 0x8000, .downgraded, "filesystem uses fs-verity"⟩]

/-- `ext4b_supported_mask`. -/
def supportedMask (set : FeatureSet) : ℕ :=
  ((featureRules.filter fun r => r.set = set ∧ r.policy = .supported).map (·.bit)).foldl (· ||| ·) 0

/-- `ext4b_rule_for`: the first rule in table order that names one of the bits. -/
def ruleFor (set : FeatureSet) (bits : ℕ) (policy : Policy) : Option FeatureRule :=
  featureRules.find? fun r => r.set = set ∧ r.policy = policy ∧ hasBits bits r.bit

/-- The bits outside the allow-list. -/
def unsupportedBits (set : FeatureSet) (bits : ℕ) : ℕ := bits &&& (0xFFFFFFFF ^^^ supportedMask set)

/-! ## The geometry gate -/

/-- What is impossible about the numbers of the superblock, if anything is: the conditions in the
    order the probe asks for them. -/
def geometryFault (s : Sblock) : Option String :=
  let bs := s.blockSize
  let inodeSize := rd16 s SBF_INODE_SIZE
  let bpg := s.blocksPerGroup
  let ipg := s.inodesPerGroup
  let revLevel := rd32 s SBF_REV_LEVEL
  let descSize := rd16 s SBF_DESC_SIZE
  if revLevel = 0 ∧ inodeSize ≠ 128 then
    some "revision-0 superblock with an inode size other than 128"
  else if inodeSize < 128 ∨ inodeSize > bs then
    some "inode size is outside [128, block size]"
  else if hasBits inodeSize (inodeSize - 1) then
    some "inode size is not a power of two"
  else if bpg < 8 ∨ bpg > 8 * bs then
    some "blocks per group is outside [8, 8 x block size]"
  else if bpg % 8 ≠ 0 then
    some "blocks per group is not a multiple of 8"
  else if ipg = 0 ∨ ipg > 8 * bs then
    some "inodes per group is outside [1, 8 x block size]"
  else if ipg % 8 ≠ 0 then
    some "inodes per group is not a multiple of 8"
  else if ipg > s.inodesCount then
    some "inodes per group exceeds the total inode count"
  else if s.firstDataBlock ≠ (if bs = 1024 then 1 else 0) then
    some "first data block does not match the block size"
  else if s.blockCount ≤ s.firstDataBlock then
    some "the volume has no blocks past its first"
  else if revLevel ≠ 0 ∧ rd32 s SBF_FIRST_INO < 11 then
    some "first non-reserved inode is below 11"
  else if rd32 s SBF_JOURNAL_INUM > s.inodesCount then
    some "journal inode is past the end of the inode table"
  else if (get8 s SBF_LOG_GROUPS_PER_FLEX).toNat > 31 then
    some "flex_bg group shift is impossible"
  else if rd16 s SBF_RESERVED_GDT > bs / 4 then
    some "reserved GDT blocks exceed what one block can address"
  else if descSize ≠ 0 ∧ (descSize < 32 ∨ descSize > bs) then
    some "group descriptor size is outside [32, block size]"
  else if descSize ≠ 0 ∧ hasBits descSize (descSize - 1) then
    some "group descriptor size is not a power of two"
  else if descSize = 0 ∧ s.is64bit then
    some "64-bit volume with no group descriptor size"
  else if s.probedGroups = 0 ∨ s.probedGroups > 0xFFFFFFFF then
    some "the volume needs more block groups than ext4 can address"
  else if ipg * s.probedGroups ≠ s.inodesCount then
    some "inode count is not block groups x inodes per group"
  else none

/-! ## The probe -/

/-- `ext4b_probe_verdict`. -/
inductive Verdict where
  | notExt
  | usable
  | readOnly
  | unsupported
  deriving DecidableEq, Repr

/-- `ext4b_probe_info`, without the label and the UUID. -/
structure ProbeInfo where
  verdict : Verdict := .notExt
  blockSize : ℕ := 0
  blockCount : ℕ := 0
  freeBlocks : ℕ := 0
  inodeCount : ℕ := 0
  freeInodes : ℕ := 0
  featureIncompat : ℕ := 0
  featureRoCompat : ℕ := 0
  featureCompat : ℕ := 0
  hasJournal : Bool := false
  needsRecovery : Bool := false
  generation : ℕ := 0
  unsupported : String := ""

/-- The device the probe reads: its geometry, and what the read of the superblock brings, if
    anything. -/
structure ProbeDevice where
  phBcnt : ℕ
  phBsize : ℕ
  readSb : Option Sblock

/-- What fits into a C string of `size` bytes. -/
def snprintf (size : ℕ) (text : String) : String := String.ofList (text.toList.take (size - 1))

/-- `%08x`. -/
def hex8 (n : ℕ) : String := String.ofList ((Nat.toDigits 16 n).leftpad 8 '0')

/-- The fields of the probe's answer that it fills in before its checks. -/
def probeFields (s : Sblock) : ProbeInfo where
  blockSize := s.blockSize
  blockCount := s.blockCount
  freeBlocks := s.freeBlocks
  inodeCount := s.inodesCount
  freeInodes := rd32 s SBF_FREE_INODES
  featureIncompat := s.featureIncompat
  featureRoCompat := s.featureRoCompat
  featureCompat := s.featureCompat
  hasJournal := hasBits s.featureCompat 0x0004
  needsRecovery := hasBits s.featureIncompat 0x0004
  generation :=
    if hasBits s.featureIncompat 0x0040 then 4 else if hasBits s.featureCompat 0x0004 then 3 else 2

/-- The answer `verdict`, with its reason. -/
def ProbeInfo.refuse (out : ProbeInfo) (verdict : Verdict) (why : String) : ProbeInfo :=
  { out with verdict := verdict, unsupported := snprintf 128 why }

/-- The checks of `ext4b_probe` on a superblock with the right magic and a possible block size. -/
def probeChecks (devBytes : ℕ) (s : Sblock) : ProbeInfo :=
  let out := probeFields s
  let badIncompat := unsupportedBits .incompat s.featureIncompat
  let badRo := unsupportedBits .roCompat s.featureRoCompat
  -- by division, since the product may not fit 64 bits
  if s.blockCount = 0 ∨ s.blockCount > devBytes / s.blockSize then
    out.refuse .unsupported s!"superblock claims {s.blockCount} blocks, larger than the device"
  else if hasBits s.featureRoCompat 0x0200 then
    out.refuse .unsupported (((ruleFor .roCompat 0x0200 .refused).map (·.why)).getD
      "bigalloc is not supported by this driver")
  else match geometryFault s with
    | some why => out.refuse .unsupported ("superblock geometry is impossible: "
        ++ snprintf 96 why ++ " (the superblock is damaged; e2fsck is the fix)")
    | none =>
      if hasBits s.featureRoCompat 0x0400 ∧ rd32 s SBF_CHECKSUM
          ≠ (Jbd.ext4Crc32c Jbd.EXT4_CRC32_INIT ((toList s).take SBF_CHECKSUM)).toNat then
        out.refuse .unsupported
          "superblock checksum mismatch: the superblock is damaged, not unsupported (e2fsck is the fix)"
      else if badIncompat ≠ 0 then
        out.refuse .unsupported ((((ruleFor .incompat badIncompat .refused).map (·.why)).getD
          "unsupported incompatible features") ++ " (incompat 0x" ++ hex8 badIncompat ++ ")")
      else if badRo ≠ 0 then
        out.refuse .readOnly ((((ruleFor .roCompat badRo .downgraded).map (·.why)).getD
          "unsupported read-only features") ++ " (ro_compat 0x" ++ hex8 badRo ++ ")")
      else { out with verdict := .usable }

/-- `ext4b_probe`; the error is `EIO`. -/
def ext4bProbe (dev : ProbeDevice) : Option ProbeInfo :=
  dev.readSb.map fun s =>
    if rd16 s SBF_MAGIC ≠ EXT_MAGIC then {}
    else if s.logBlockSize > 6 then
      ({} : ProbeInfo).refuse .unsupported s!"implausible block size shift ({s.logBlockSize})"
    else probeChecks (dev.phBcnt * dev.phBsize % 2 ^ 64) s

/-- The verdicts a volume mounts with. -/
def Verdict.Accepts (v : Verdict) : Prop := v = .usable ∨ v = .readOnly

instance (v : Verdict) : Decidable v.Accepts := inferInstanceAs (Decidable (_ ∨ _))

/-- The device holds a superblock the probe accepts. -/
def Accepted (dev : ProbeDevice) (s : Sblock) : Prop :=
  dev.readSb = some s ∧ ∃ out, ext4bProbe dev = some out ∧ out.verdict.Accepts

/-! ## What acceptance says -/

/-- The numbers of a superblock the gate lets through. -/
structure Gate (s : Sblock) : Prop where
  log_block_size : s.logBlockSize ≤ 6
  fits_device : s.blockCount * s.blockSize < 2 ^ 64
  blocks_per_group_ge : 8 ≤ s.blocksPerGroup
  blocks_per_group_le : s.blocksPerGroup ≤ 8 * s.blockSize
  blocks_per_group_mod : s.blocksPerGroup % 8 = 0
  inodes_per_group_ge : 8 ≤ s.inodesPerGroup
  inodes_per_group_le : s.inodesPerGroup ≤ 8 * s.blockSize
  first_data_block : s.firstDataBlock = if s.blockSize = 1024 then 1 else 0
  first_data_block_lt : s.firstDataBlock < s.blockCount
  inodes_count : s.inodesPerGroup * s.probedGroups = s.inodesCount

theorem Gate.blocksPerGroup_lt {s : Sblock} (h : Gate s) : s.blocksPerGroup ≤ 2 ^ 19 := by
  have hle := h.blocks_per_group_le
  have hpow : 2 ^ s.logBlockSize ≤ 2 ^ 6 := Nat.pow_le_pow_right (by decide) h.log_block_size
  unfold Sblock.blockSize at hle
  omega

theorem Gate.probedGroups_pos {s : Sblock} (h : Gate s) : 0 < s.probedGroups := by
  have hlt := h.first_data_block_lt
  have hge := h.blocks_per_group_ge
  exact Nat.div_pos (by omega) (by omega)

theorem Gate.probedGroups_lt {s : Sblock} (h : Gate s) : s.probedGroups < 2 ^ 29 := by
  have hinodes := h.inodes_count
  have hlt : s.inodesCount < 2 ^ 32 := rd32_lt _ _
  have hle : 8 * s.probedGroups ≤ s.inodesPerGroup * s.probedGroups :=
    Nat.mul_le_mul_right _ h.inodes_per_group_ge
  omega

/-- No fault is found where the first condition does not hold and none after it does. -/
theorem some_else_eq_none {c : Prop} [Decidable c] {why : String} {rest : Option String} :
    (if c then some why else rest) = none ↔ ¬ c ∧ rest = none := by
  by_cases hc : c <;> simp [hc]

theorem not_accepts_refuse (out : ProbeInfo) (why : String) :
    ¬ (out.refuse .unsupported why).verdict.Accepts := by
  rintro (h | h) <;> exact Verdict.noConfusion h

/-- A mounted volume fits the device, and nothing is impossible about its numbers. -/
theorem probeChecks_accepts {devBytes : ℕ} {s : Sblock}
    (h : (probeChecks devBytes s).verdict.Accepts) :
    s.blockCount ≤ devBytes / s.blockSize ∧ geometryFault s = none := by
  unfold probeChecks at h
  dsimp only at h
  split at h
  · exact absurd h (not_accepts_refuse _ _)
  · next hfits =>
      split at h
      · exact absurd h (not_accepts_refuse _ _)
      · cases hfault : geometryFault s with
        | some why =>
            rw [hfault] at h
            exact absurd h (not_accepts_refuse _ _)
        | none => exact ⟨by omega, rfl⟩

/-- What the probe looked at before it accepted a superblock. -/
theorem Accepted.checks {dev : ProbeDevice} {s : Sblock} (h : Accepted dev s) :
    s.logBlockSize ≤ 6 ∧
      (probeChecks (dev.phBcnt * dev.phBsize % 2 ^ 64) s).verdict.Accepts := by
  obtain ⟨hread, out, hprobe, haccepts⟩ := h
  unfold ext4bProbe at hprobe
  rw [hread, Option.map_some, Option.some.injEq] at hprobe
  subst hprobe
  split at haccepts
  · exact absurd haccepts (by decide)
  split at haccepts
  · exact absurd haccepts (not_accepts_refuse _ _)
  next hlog => exact ⟨by omega, haccepts⟩

/-- **A superblock the probe accepts is one the gate lets through.** -/
theorem Accepted.gate {dev : ProbeDevice} {s : Sblock} (h : Accepted dev s) : Gate s := by
  obtain ⟨hlog, haccepts⟩ := h.checks
  obtain ⟨hfits, hfault⟩ := probeChecks_accepts haccepts
  have hdev : dev.phBcnt * dev.phBsize % 2 ^ 64 < 2 ^ 64 := Nat.mod_lt _ (by decide)
  have hsize : s.blockCount * s.blockSize < 2 ^ 64 :=
    Nat.lt_of_le_of_lt (Nat.mul_le_of_le_div _ _ _ hfits) hdev
  unfold geometryFault at hfault
  simp only [some_else_eq_none] at hfault
  obtain ⟨-, -, -, hbpg, hbpgMod, hipg, hipgMod, -, hfirst, hlt, -, -, -, -, -, -, -, -, hinodes,
    -⟩ := hfault
  exact ⟨hlog, hsize, by omega, by omega, by omega, by omega, by omega, not_not.mp hfirst,
    by omega, not_not.mp hinodes⟩

/-- An accepted superblock has no incompatible feature outside the allow-list. -/
theorem Accepted.supported {dev : ProbeDevice} {s : Sblock} (h : Accepted dev s) :
    unsupportedBits .incompat s.featureIncompat = 0 := by
  have haccepts := h.checks.2
  unfold probeChecks at haccepts
  dsimp only at haccepts
  split at haccepts
  · exact absurd haccepts (not_accepts_refuse _ _)
  split at haccepts
  · exact absurd haccepts (not_accepts_refuse _ _)
  cases hfault : geometryFault s with
  | some why =>
      rw [hfault] at haccepts
      exact absurd haccepts (not_accepts_refuse _ _)
  | none =>
      rw [hfault] at haccepts
      dsimp only at haccepts
      split at haccepts
      · exact absurd haccepts (not_accepts_refuse _ _)
      split at haccepts
      · exact absurd haccepts (not_accepts_refuse _ _)
      · next hnone => exact not_not.mp hnone

end Ext4b
