import OpenExt4.Journal.Tag

set_option autoImplicit false

/-! # Headers and checksums of log records

Descriptor, revoke and commit blocks start with the same header; each carries a checksum of its
own when the journal has one. For every kind of record: how the writer fills it, what the reader
checks, and that what the first does passes the second. -/

namespace Jbd

open Bytes

variable {bs : ℕ}

/-! ## Headers -/

/-- Fill in `struct jbd_bhdr`. -/
def setHeader (b : Buf bs) (blocktype sequence : ℕ) : Buf bs :=
  set32 (set32 (set32 b 0 JBD_MAGIC_NUMBER) 4 blocktype) 8 sequence

/-- The block starts with the header of a `blocktype` record of transaction `sequence`. -/
structure HeaderIs (b : Buf bs) (blocktype sequence : ℕ) : Prop where
  magic : get32 b 0 = JBD_MAGIC_NUMBER
  blocktype : get32 b 4 = blocktype
  sequence : get32 b 8 = sequence

theorem headerIs_setHeader (b : Buf bs) {blocktype sequence : ℕ} (hbs : BHDR_SIZE ≤ bs)
    (htype : blocktype < 2 ^ 32) (hseq : sequence < 2 ^ 32) :
    HeaderIs (setHeader b blocktype sequence) blocktype sequence := by
  unfold BHDR_SIZE at hbs
  unfold setHeader set32
  constructor
  · rw [get32, getBE_putBE_of_disjoint (by omega), getBE_putBE_of_disjoint (by omega),
      getBE_putBE (by omega)]
    rfl
  · rw [get32, getBE_putBE_of_disjoint (by omega), getBE_putBE (by omega)]
    exact Nat.mod_eq_of_lt htype
  · rw [get32, getBE_putBE (by omega)]
    exact Nat.mod_eq_of_lt hseq

theorem HeaderIs.congr {b c : Buf bs} {blocktype sequence : ℕ} (h : HeaderIs b blocktype sequence)
    (heq : ∀ i < BHDR_SIZE, get8 c i = get8 b i) : HeaderIs c blocktype sequence := by
  unfold BHDR_SIZE at heq
  constructor
  · rw [get32, getBE_congr fun i _ _ => heq i (by omega)]
    exact h.magic
  · rw [get32, getBE_congr fun i _ _ => heq i (by omega)]
    exact h.blocktype
  · rw [get32, getBE_congr fun i _ _ => heq i (by omega)]
    exact h.sequence

/-! ## Checksums of descriptor and revoke blocks -/

/-- The seed of every checksum of this journal: `ext4_crc32c` of the UUID. -/
def uuidSeed (sb : JbdSb bs) : UInt32 := ext4Crc32c EXT4_CRC32_INIT (toList sb.uuid)

/-- `jbd_meta_csum`, which takes the tail's own checksum as zero. -/
def jbdMetaCsum (sb : JbdSb bs) (b : Buf bs) : ℕ :=
  if jbdHasCsum sb = 0 then 0
  else (ext4Crc32c (uuidSeed sb) (toList (set32 b (bs - BLOCK_TAIL_SIZE) 0))).toNat

/-- `jbd_meta_csum_set`. -/
def jbdMetaCsumSet (sb : JbdSb bs) (b : Buf bs) : Buf bs :=
  if jbdHasCsum sb = 0 then b else set32 b (bs - BLOCK_TAIL_SIZE) (jbdMetaCsum sb b)

/-- `jbd_verify_meta_csum`. -/
def jbdVerifyMetaCsum (sb : JbdSb bs) (b : Buf bs) : Bool :=
  if jbdHasCsum sb = 0 then true
  else jbdMetaCsum sb b == get32 b (bs - BLOCK_TAIL_SIZE)

theorem jbdVerifyMetaCsum_set (sb : JbdSb bs) (b : Buf bs) :
    jbdVerifyMetaCsum sb (jbdMetaCsumSet sb b) = true := by
  have hbs := sb.block_size
  unfold jbdVerifyMetaCsum jbdMetaCsumSet
  split
  · rfl
  · next hcsum =>
      have hsame : jbdMetaCsum sb (set32 b (bs - BLOCK_TAIL_SIZE) (jbdMetaCsum sb b))
          = jbdMetaCsum sb b := by
        simp only [jbdMetaCsum, if_neg hcsum, set32, putBE_putBE_same]
      have hlt : jbdMetaCsum sb b < 256 ^ 4 := by
        simp only [jbdMetaCsum, if_neg hcsum]
        exact UInt32.toNat_lt _
      rw [hsame, get32, set32, getBE_putBE (by unfold BLOCK_TAIL_SIZE; omega),
        Nat.mod_eq_of_lt hlt, beq_self_eq_true]

/-- Setting the checksum moves the tail only. -/
theorem get8_jbdMetaCsumSet {sb : JbdSb bs} {b : Buf bs} {i : ℕ} (h : i < bs - tailSize sb) :
    get8 (jbdMetaCsumSet sb b) i = get8 b i := by
  unfold tailSize at h
  unfold jbdMetaCsumSet
  split at h
  · next hcsum => rw [if_pos hcsum]
  · next hcsum =>
      rw [if_neg hcsum]
      exact get8_patch_of_disjoint (Or.inl h)

/-! ## Commit blocks -/

/-- The commit block with its three checksum fields (`chksum_type`, `chksum_size`, `chksum[0]`)
    set. -/
def setCommitChksum (b : Buf bs) (chksumType chksumSize chksum : ℕ) : Buf bs :=
  putBE 4 (putBE 1 (putBE 1 b 12 chksumType) 13 chksumSize) 16 chksum

/-- `jbd_commit_csum`, which takes the three fields as zero. -/
def jbdCommitCsum (sb : JbdSb bs) (b : Buf bs) : ℕ :=
  if jbdHasCsum sb = 0 then 0
  else (ext4Crc32c (uuidSeed sb) (toList (setCommitChksum b 0 0 0))).toNat

/-- `jbd_commit_csum_set`. -/
def jbdCommitCsumSet (sb : JbdSb bs) (b : Buf bs) : Buf bs :=
  if jbdHasCsum sb = 0 then b else setCommitChksum b 0 0 (jbdCommitCsum sb b)

/-- `jbd_verify_commit_csum`. -/
def jbdVerifyCommitCsum (sb : JbdSb bs) (b : Buf bs) : Bool :=
  if jbdHasCsum sb = 0 then true else get32 b 16 == jbdCommitCsum sb b

theorem setCommitChksum_twice (b : Buf bs) (t s c t' s' c' : ℕ) :
    setCommitChksum (setCommitChksum b t s c) t' s' c' = setCommitChksum b t' s' c' := by
  refine ext_get8 fun i _ => ?_
  unfold setCommitChksum putBE
  simp only [get8_patch]
  split_ifs <;> rfl

theorem jbdVerifyCommitCsum_set (sb : JbdSb bs) (b : Buf bs) :
    jbdVerifyCommitCsum sb (jbdCommitCsumSet sb b) = true := by
  have hbs := sb.block_size
  unfold jbdVerifyCommitCsum jbdCommitCsumSet
  split
  · rfl
  · next hcsum =>
      have hsame : jbdCommitCsum sb (setCommitChksum b 0 0 (jbdCommitCsum sb b))
          = jbdCommitCsum sb b := by
        simp only [jbdCommitCsum, if_neg hcsum, setCommitChksum_twice]
      have hlt : jbdCommitCsum sb b < 256 ^ 4 := by
        simp only [jbdCommitCsum, if_neg hcsum]
        exact UInt32.toNat_lt _
      rw [hsame, get32, setCommitChksum, getBE_putBE (by omega), Nat.mod_eq_of_lt hlt,
        beq_self_eq_true]

theorem get8_setCommitChksum {b : Buf bs} {t s c i : ℕ} (h : i < BHDR_SIZE) :
    get8 (setCommitChksum b t s c) i = get8 b i := by
  unfold BHDR_SIZE at h
  unfold setCommitChksum putBE
  simp (disch := omega) only [get8_patch_of_disjoint]

/-- The commit checksum leaves the header alone. -/
theorem get8_jbdCommitCsumSet {sb : JbdSb bs} {b : Buf bs} {i : ℕ} (h : i < BHDR_SIZE) :
    get8 (jbdCommitCsumSet sb b) i = get8 b i := by
  unfold jbdCommitCsumSet
  split
  · rfl
  · exact get8_setCommitChksum h

/-- The bytes of a commit block as `jbd_trans_write_commit_block` fills them. The test for the
    compatible feature goes through the macro for incompatible ones, as in the source. -/
def commitBlock (sb : JbdSb bs) (b : Buf bs) (transId dataCsum : ℕ) : Buf bs :=
  let b := setHeader b JBD_COMMIT_BLOCK transId
  let b := if sb.hasIncompat JBD_FEATURE_COMPAT_CHECKSUM then
      setCommitChksum b JBD_CRC32_CHKSUM JBD_CRC32_CHKSUM_SIZE dataCsum
    else b
  jbdCommitCsumSet sb b

theorem headerIs_commitBlock (sb : JbdSb bs) (b : Buf bs) {transId : ℕ} (dataCsum : ℕ)
    (hid : transId < 2 ^ 32) :
    HeaderIs (commitBlock sb b transId dataCsum) JBD_COMMIT_BLOCK transId := by
  have hbs : BHDR_SIZE ≤ bs := by have := sb.block_size; unfold BHDR_SIZE; omega
  have hheader : HeaderIs (setHeader b JBD_COMMIT_BLOCK transId) JBD_COMMIT_BLOCK transId :=
    headerIs_setHeader b hbs (by decide) hid
  unfold commitBlock
  dsimp only
  split
  · exact hheader.congr fun i hi => by rw [get8_jbdCommitCsumSet hi, get8_setCommitChksum hi]
  · exact hheader.congr fun i hi => get8_jbdCommitCsumSet hi

theorem jbdVerifyCommitCsum_commitBlock (sb : JbdSb bs) (b : Buf bs) (transId dataCsum : ℕ) :
    jbdVerifyCommitCsum sb (commitBlock sb b transId dataCsum) = true :=
  jbdVerifyCommitCsum_set sb _

/-! ## Data checksums -/

/-- `jbd_block_csum`: of one data block, or with the old compatible feature running over all of
    them. The sequence number is checksummed in big-endian order. -/
def jbdBlockCsum (sb : JbdSb bs) (buf : Buf bs) (csum : UInt32) (sequence : ℕ) : UInt32 :=
  if jbdHasCsum sb ≠ 0 then
    ext4Crc32c (ext4Crc32c (uuidSeed sb) (toList (putBE 4 (zeros 4) 0 sequence))) (toList buf)
  else if sb.hasIncompat JBD_FEATURE_COMPAT_CHECKSUM then ext4Crc32 csum (toList buf)
  else 0

/-! ## Revoke blocks -/

/-- The size of a record of a revoke block. -/
def revokeRecordLen (sb : JbdSb bs) : ℕ :=
  if sb.hasIncompat JBD_FEATURE_INCOMPAT_64BIT then 8 else 4

/-- The block numbers `jbd_build_revoke_tree` takes from a revoke block, in order; a count outside
    the block yields none. -/
def revokeEntries (sb : JbdSb bs) (b : Buf bs) : List ℕ :=
  let count := get32 b 12
  if count < REVOKE_HEADER_SIZE ∨ count > bs then []
  else
    (List.range ((count - REVOKE_HEADER_SIZE) / revokeRecordLen sb)).map fun i =>
      getBE (revokeRecordLen sb) b (REVOKE_HEADER_SIZE + i * revokeRecordLen sb)

/-- The records `lbas` stand one behind the other after the revoke header. -/
def StoredRecords (sb : JbdSb bs) (b : Buf bs) (lbas : List ℕ) : Prop :=
  ∀ i (h : i < lbas.length),
    getBE (revokeRecordLen sb) b (REVOKE_HEADER_SIZE + i * revokeRecordLen sb) = lbas[i]

theorem StoredRecords.congr {sb : JbdSb bs} {b c : Buf bs} {lbas : List ℕ}
    (h : StoredRecords sb b lbas)
    (heq : ∀ i, REVOKE_HEADER_SIZE ≤ i →
      i < REVOKE_HEADER_SIZE + lbas.length * revokeRecordLen sb → get8 c i = get8 b i) :
    StoredRecords sb c lbas := by
  intro i hi
  rw [← h i hi]
  refine getBE_congr fun j hlo hhi => heq j (by omega) ?_
  have hle : (i + 1) * revokeRecordLen sb ≤ lbas.length * revokeRecordLen sb :=
    Nat.mul_le_mul_right _ hi
  rw [Nat.add_mul] at hle
  omega

theorem StoredRecords.snoc {sb : JbdSb bs} {b : Buf bs} {lbas : List ℕ} {lba : ℕ}
    (h : StoredRecords sb b lbas)
    (hlast : getBE (revokeRecordLen sb) b
      (REVOKE_HEADER_SIZE + lbas.length * revokeRecordLen sb) = lba) :
    StoredRecords sb b (lbas ++ [lba]) := by
  intro i hi
  rw [List.length_append, List.length_singleton] at hi
  by_cases hlt : i < lbas.length
  · rw [List.getElem_append_left hlt]
    exact h i hlt
  · obtain rfl : i = lbas.length := by omega
    simpa using hlast

/-- A revoke block whose count ends behind its records yields exactly them. -/
theorem revokeEntries_of_stored {sb : JbdSb bs} {b : Buf bs} {lbas : List ℕ}
    (h : StoredRecords sb b lbas)
    (hcount : get32 b 12 = REVOKE_HEADER_SIZE + lbas.length * revokeRecordLen sb)
    (hroom : REVOKE_HEADER_SIZE + lbas.length * revokeRecordLen sb ≤ bs) :
    revokeEntries sb b = lbas := by
  have hpos : 0 < revokeRecordLen sb := by unfold revokeRecordLen; split <;> omega
  unfold revokeEntries
  dsimp only
  rw [hcount, if_neg (by omega), Nat.add_sub_cancel_left, Nat.mul_div_cancel _ hpos]
  refine List.ext_getElem (by simp) fun i hi hi' => ?_
  simpa using h i hi'

end Jbd
