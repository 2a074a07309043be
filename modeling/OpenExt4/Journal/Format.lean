import Mathlib.Tactic.SplitIfs
import OpenExt4.Lib.Bytes

set_option autoImplicit false

/-! # The on-disk format of the journal

The record layouts of `ext4_types.h` and the helpers of `ext4_journal.c` that both halves of the
journal share: feature tests, block tags, checksums, escaping, the wrap of a log position and
the serial comparison of transaction ids. Offsets are those of the packed C structures; every
field is big-endian. -/

namespace Jbd

open Bytes

/-! ## Constants -/

def JBD_MAGIC_NUMBER : ℕ := 0xc03b3998

def JBD_DESCRIPTOR_BLOCK : ℕ := 1
def JBD_COMMIT_BLOCK : ℕ := 2
def JBD_SUPERBLOCK : ℕ := 3
def JBD_SUPERBLOCK_V2 : ℕ := 4
def JBD_REVOKE_BLOCK : ℕ := 5

def JBD_FLAG_ESCAPE : ℕ := 1
def JBD_FLAG_SAME_UUID : ℕ := 2
def JBD_FLAG_LAST_TAG : ℕ := 8

/-! The feature masks, each a single bit, by the position of that bit. -/

def JBD_FEATURE_COMPAT_CHECKSUM : ℕ := 0
def JBD_FEATURE_INCOMPAT_REVOKE : ℕ := 0
def JBD_FEATURE_INCOMPAT_64BIT : ℕ := 1
def JBD_FEATURE_INCOMPAT_CSUM_V2 : ℕ := 3
def JBD_FEATURE_INCOMPAT_CSUM_V3 : ℕ := 4

def JBD_CRC32_CHKSUM : ℕ := 1
def JBD_CRC32_CHKSUM_SIZE : ℕ := 4

/-- `sizeof(struct jbd_bhdr)`. -/
def BHDR_SIZE : ℕ := 12
/-- `sizeof(struct jbd_revoke_header)`. -/
def REVOKE_HEADER_SIZE : ℕ := 16
/-- `sizeof(struct jbd_block_tail)`. -/
def BLOCK_TAIL_SIZE : ℕ := 4
def UUID_SIZE : ℕ := 16

/-- The error numbers the journal code returns. -/
inductive Errno where
  | ENOSPC
  | EINVAL
  | EIO
  | ENOMEM
  | ENXIO
  deriving DecidableEq, Repr

/-! ## Fields and checksums -/

/-- A 32-bit big-endian field (`jbd_get32`). -/
abbrev get32 {n : ℕ} (b : Buf n) (o : ℕ) : ℕ := getBE 4 b o

/-- Store a 32-bit big-endian field (`jbd_set32`). -/
abbrev set32 {n : ℕ} (b : Buf n) (o v : ℕ) : Buf n := putBE 4 b o v

/-- One entry of a reflected CRC table, eight shift steps of `poly`: `crc32_tab` and `crc32c_tab`
    are the tables of `0xEDB88320` and `0x82F63B78`. -/
def crcTab (poly : UInt32) (i : UInt32) : UInt32 :=
  let step (c : UInt32) : UInt32 := if c &&& 1 = 1 then (c >>> 1) ^^^ poly else c >>> 1
  step (step (step (step (step (step (step (step i)))))))

def crc32 (poly crc : UInt32) (buf : List UInt8) : UInt32 :=
  buf.foldl (fun c p => crcTab poly ((c ^^^ p.toUInt32) &&& 0xff) ^^^ (c >>> 8)) crc

def ext4Crc32 (crc : UInt32) (buf : List UInt8) : UInt32 := crc32 0xEDB88320 crc buf

def ext4Crc32c (crc : UInt32) (buf : List UInt8) : UInt32 := crc32 0x82F63B78 crc buf

example : crcTab 0xEDB88320 1 = 0x77073096 ∧ crcTab 0x82F63B78 1 = 0xF26B8303 := by decide

def EXT4_CRC32_INIT : UInt32 := 0xFFFFFFFF

/-! ## The journal superblock -/

/-- The static fields of `struct jbd_sb` the log code reads, of a superblock that `jbd_get_fs` let
    through: `jbd_verify_sb` saw one of the two superblock types, `first` lies below `maxlen`, and
    the block size `bs`, a 32-bit field, is the file system's own (`1024 << log_block_size`). The
    feature word is given by its bits. -/
structure JbdSb (bs : ℕ) where
  blocktype : ℕ
  maxlen : ℕ
  first : ℕ
  featureIncompat : ℕ → Bool
  uuid : Buf UUID_SIZE
  verified : blocktype = JBD_SUPERBLOCK ∨ blocktype = JBD_SUPERBLOCK_V2
  first_lt : first < maxlen
  block_size : 1024 ≤ bs
  block_size_lt : bs < 2 ^ 32

/-- The fields of a superblock of version 2 on blocks of 1 KiB are in order. -/
theorem verified_v2 :
    JBD_SUPERBLOCK_V2 = JBD_SUPERBLOCK ∨ JBD_SUPERBLOCK_V2 = JBD_SUPERBLOCK_V2 := Or.inr rfl

theorem least_block : 1024 ≤ 1024 := le_rfl

theorem least_block_lt : 1024 < 2 ^ 32 := by decide

/-- The dynamic fields of `struct jbd_sb`: the first log block recovery reads, and the transaction
    it expects there. -/
structure JbdTail where
  start : ℕ
  sequence : ℕ

variable {bs : ℕ}

/-- The byte swap behind `to_be32` on a little-endian machine. -/
def bswap32 (v : ℕ) : ℕ :=
  v % 256 * 2 ^ 24 + v / 2 ^ 8 % 256 * 2 ^ 16 + v / 2 ^ 16 % 256 * 2 ^ 8 + v / 2 ^ 24 % 256

/-- `JBD_HAS_INCOMPAT_FEATURE`; the block types are compared as the raw big-endian words. -/
def JbdSb.hasIncompat (sb : JbdSb bs) (feature : ℕ) : Bool :=
  sb.featureIncompat feature && decide (bswap32 2 ≤ bswap32 sb.blocktype)

/-- Both superblock types pass the type test, so the macro reads the feature word alone. -/
theorem JbdSb.hasIncompat_eq (sb : JbdSb bs) (feature : ℕ) :
    sb.hasIncompat feature = sb.featureIncompat feature := by
  have htype : bswap32 2 ≤ bswap32 sb.blocktype := by
    rcases sb.verified with h | h <;> rw [h] <;> decide
  simp [hasIncompat, htype]

/-- `jbd_has_csum`: the version of the metadata checksums, `0` for none. -/
def jbdHasCsum (sb : JbdSb bs) : ℕ :=
  if sb.hasIncompat JBD_FEATURE_INCOMPAT_CSUM_V2 then 2
  else if sb.hasIncompat JBD_FEATURE_INCOMPAT_CSUM_V3 then 3
  else 0

/-- `jbd_tag_bytes`: the size of a block tag, not including the UUID part. -/
def jbdTagBytes (sb : JbdSb bs) : ℕ :=
  if sb.hasIncompat JBD_FEATURE_INCOMPAT_CSUM_V3 then 16
  else
    let size := if sb.hasIncompat JBD_FEATURE_INCOMPAT_CSUM_V2 then 12 + 2 else 12
    if sb.hasIncompat JBD_FEATURE_INCOMPAT_64BIT then size else size - 4

/-- The space a metadata block of the log keeps back for its checksum. -/
def tailSize (sb : JbdSb bs) : ℕ := if jbdHasCsum sb = 0 then 0 else BLOCK_TAIL_SIZE

/-- The reader asks for the two features where the writer asks `jbd_has_csum`: the same answer. -/
theorem jbdHasCsum_ne_zero (sb : JbdSb bs) :
    jbdHasCsum sb ≠ 0 ↔ (sb.hasIncompat JBD_FEATURE_INCOMPAT_CSUM_V2 ||
      sb.hasIncompat JBD_FEATURE_INCOMPAT_CSUM_V3) = true := by
  unfold jbdHasCsum
  cases sb.hasIncompat JBD_FEATURE_INCOMPAT_CSUM_V2 <;>
    cases sb.hasIncompat JBD_FEATURE_INCOMPAT_CSUM_V3 <;> simp

theorem jbdTagBytes_bounds (sb : JbdSb bs) : 8 ≤ jbdTagBytes sb ∧ jbdTagBytes sb ≤ 16 := by
  simp only [jbdTagBytes]
  split_ifs <;> omega

/-- With 64-bit block numbers a tag reaches past `blocknr_high`. -/
theorem jbdTagBytes_64bit {sb : JbdSb bs} (h : sb.hasIncompat JBD_FEATURE_INCOMPAT_64BIT = true) :
    12 ≤ jbdTagBytes sb := by
  simp only [jbdTagBytes, h]
  split_ifs <;> omega

theorem jbdTagBytes_v3 {sb : JbdSb bs}
    (h : sb.hasIncompat JBD_FEATURE_INCOMPAT_CSUM_V3 = true) : jbdTagBytes sb = 16 := by
  simp [jbdTagBytes, h]

theorem tailSize_le (sb : JbdSb bs) : tailSize sb ≤ 4 := by
  unfold tailSize BLOCK_TAIL_SIZE
  split <;> omega

/-! ## Positions in the log and transaction ids -/

/-- The macro `wrap`. -/
def wrap (sb : JbdSb bs) (v : ℕ) : ℕ :=
  if v ≥ sb.maxlen then v - (sb.maxlen - sb.first) else v

/-- `trans_id_diff`: the difference of two 32-bit ids, read as a signed number. -/
def transIdDiff (x y : ℕ) : ℤ :=
  let diff : ℕ := (x + (2 ^ 32 - y % 2 ^ 32)) % 2 ^ 32
  if diff < 2 ^ 31 then diff else (diff : ℤ) - 2 ^ 32

/-- `this_trans_id++` on 32 bits. -/
def nextTransId (x : ℕ) : ℕ := (x + 1) % 2 ^ 32

theorem nextTransId_lt (x : ℕ) : nextTransId x < 2 ^ 32 := Nat.mod_lt _ (by decide)

theorem transIdDiff_self (x : ℕ) : transIdDiff x x = 0 := by
  unfold transIdDiff
  dsimp only
  split <;> omega

theorem transIdDiff_next (x : ℕ) : transIdDiff (nextTransId x) x = 1 := by
  unfold transIdDiff nextTransId
  dsimp only
  split <;> omega

/-! ## Escaping

A logged block whose first word is the journal magic would be taken for a header; it is logged
with that word blanked, and its tag says so. -/

/-- Does the block have to be escaped? -/
def needsEscape (data : Buf bs) : Bool := get32 data 0 == JBD_MAGIC_NUMBER

/-- What the writer puts in the log for `data`. -/
def escapeData (isEscape : Bool) (data : Buf bs) : Buf bs :=
  if isEscape then set32 data 0 0 else data

/-- What the reader makes of a logged block. -/
def unescapeData (isEscape : Bool) (jdata : Buf bs) : Buf bs :=
  if isEscape then set32 jdata 0 JBD_MAGIC_NUMBER else jdata

/-- **Escaping is undone exactly**, whatever the block holds. -/
theorem unescapeData_escapeData (data : Buf bs) :
    unescapeData (needsEscape data) (escapeData (needsEscape data) data) = data := by
  unfold unescapeData escapeData
  by_cases hesc : needsEscape data = true
  · have hmagic : get32 data 0 = JBD_MAGIC_NUMBER := by simpa [needsEscape] using hesc
    rw [if_pos hesc, if_pos hesc, set32, set32, putBE_putBE_same, ← hmagic, putBE_getBE_self]
  · rw [if_neg hesc, if_neg hesc]

end Jbd
