import OpenExt4.Journal.Reader

set_option autoImplicit false

/-! # Reads inside a log block

The walks over the tags of a descriptor block and over the records of a revoke block, with every
read of the block checked against its end. The checks never fail: the size left over in a tag table
and the bound on the revoke count keep both walks inside the block, whatever it holds. -/

namespace Jbd

open Bytes

variable {bs : ℕ}

/-- Read a `w`-byte field; there is no answer past the end of the block. -/
def checkedBE (w : ℕ) (b : Buf bs) (o : ℕ) : Option ℕ :=
  if o + w ≤ bs then some (getBE w b o) else none

/-- Copy `w` bytes out of the block. -/
def checkedSlice (b : Buf bs) (o w : ℕ) : Option (Buf w) :=
  if o + w ≤ bs then some (slice b o w) else none

/-- The block number of a tag, whose high half is there with 64-bit numbers only. -/
def checkedBlocknr (sb : JbdSb bs) (b : Buf bs) (tag : ℕ) : Option ℕ := do
  let low ← checkedBE 4 b tag
  if sb.hasIncompat JBD_FEATURE_INCOMPAT_64BIT then
    let high ← checkedBE 4 b (tag + 8)
    pure (low ||| high <<< 32)
  else pure low

/-- `jbd_extract_block_tag` on checked reads. -/
def checkedExtractBlockTag (sb : JbdSb bs) (b : Buf bs) (tag tagBytes remain : ℕ) :
    Option (Except Errno TagInfo) :=
  if remain < tagBytes then some (.error .EINVAL)
  else do
    let block ← checkedBlocknr sb b tag
    let flags ← checkedBE (tagLayout sb).flagsWidth b (tag + (tagLayout sb).flagsAt)
    let info : TagInfo :=
      { tagBytes := tagBytes
        block := block
        isEscape := flags &&& JBD_FLAG_ESCAPE != 0
        uuidExist := false
        uuid := zeros UUID_SIZE
        lastTag := flags &&& JBD_FLAG_LAST_TAG != 0
        checksum := 0 }
    if flags &&& JBD_FLAG_SAME_UUID = 0 then
      if remain - tagBytes < UUID_SIZE then pure (.error .EINVAL)
      else do
        let uuid ← checkedSlice b (tag + tagBytes) UUID_SIZE
        pure (.ok { info with
          uuidExist := true
          tagBytes := tagBytes + UUID_SIZE
          uuid := uuid })
    else pure (.ok info)

/-- The loop of `jbd_iterate_block_table` on checked reads, with the tags it goes through. -/
def checkedTableTags (sb : JbdSb bs) (b : Buf bs) : ℕ → ℕ → ℕ → Option (List TagInfo)
  | 0, _, _ => some []
  | fuel + 1, tag, remain =>
      if remain = 0 then some []
      else do
        match ← checkedExtractBlockTag sb b tag (jbdTagBytes sb) remain with
        | .error _ => pure []
        | .ok info =>
            if info.lastTag then pure [info]
            else do
              let rest ← checkedTableTags sb b fuel (tag + info.tagBytes) (remain - info.tagBytes)
              pure (info :: rest)

/-- The tags of a descriptor block on checked reads. -/
def checkedDescriptorTags (sb : JbdSb bs) (b : Buf bs) : Option (List TagInfo) :=
  checkedTableTags sb b (tagTableSpace sb) BHDR_SIZE (tagTableSpace sb)

/-- The records of a revoke block on checked reads. -/
def checkedRevokeEntries (sb : JbdSb bs) (b : Buf bs) : Option (List ℕ) := do
  let count ← checkedBE 4 b 12
  if count < REVOKE_HEADER_SIZE ∨ count > bs then pure []
  else
    (List.range ((count - REVOKE_HEADER_SIZE) / revokeRecordLen sb)).mapM fun i =>
      checkedBE (revokeRecordLen sb) b (REVOKE_HEADER_SIZE + i * revokeRecordLen sb)

/-! ## The checks hold -/

variable {sb : JbdSb bs} {b : Buf bs}

theorem checkedBE_eq {w o : ℕ} (h : o + w ≤ bs) : checkedBE w b o = some (getBE w b o) :=
  if_pos h

theorem checkedSlice_eq {o w : ℕ} (h : o + w ≤ bs) : checkedSlice b o w = some (slice b o w) :=
  if_pos h

/-- The flags lie inside the bytes of the tag. -/
theorem tagLayout_flags_le (sb : JbdSb bs) :
    (tagLayout sb).flagsAt + (tagLayout sb).flagsWidth ≤ jbdTagBytes sb := by
  have hbytes := (jbdTagBytes_bounds sb).1
  unfold tagLayout
  split <;> exact hbytes

theorem checkedBlocknr_eq {tag : ℕ} (h : tag + jbdTagBytes sb ≤ bs) :
    checkedBlocknr sb b tag = some (if sb.hasIncompat JBD_FEATURE_INCOMPAT_64BIT then
      get32 b tag ||| get32 b (tag + 8) <<< 32 else get32 b tag) := by
  have hbytes := (jbdTagBytes_bounds sb).1
  unfold checkedBlocknr
  rw [checkedBE_eq (by omega)]
  by_cases h64 : sb.hasIncompat JBD_FEATURE_INCOMPAT_64BIT = true
  · have hlong := jbdTagBytes_64bit h64
    rw [checkedBE_eq (by omega), if_pos h64]
    simp [h64]
  · simp [h64]

/-- A tag is read inside the table that is left. -/
theorem checkedExtractBlockTag_eq {tag remain : ℕ} (hin : tag + remain ≤ bs) :
    checkedExtractBlockTag sb b tag (jbdTagBytes sb) remain
      = some (jbdExtractBlockTag sb b tag (jbdTagBytes sb) remain) := by
  unfold checkedExtractBlockTag jbdExtractBlockTag
  by_cases hshort : remain < jbdTagBytes sb
  · rw [if_pos hshort, if_pos hshort]
  have hflags := tagLayout_flags_le sb
  rw [if_neg hshort, if_neg hshort, checkedBlocknr_eq (by omega), checkedBE_eq (by omega)]
  simp only [Option.bind_eq_bind, Option.bind_some]
  change (if getFlags sb b tag &&& JBD_FLAG_SAME_UUID = 0 then _ else _) = _
  by_cases hsame : getFlags sb b tag &&& JBD_FLAG_SAME_UUID = 0
  · rw [if_pos hsame, if_pos hsame]
    by_cases huuid : remain - jbdTagBytes sb < UUID_SIZE
    · rw [if_pos huuid, if_pos huuid]
      rfl
    · rw [if_neg huuid, if_neg huuid, checkedSlice_eq (by omega)]
      rfl
  · rw [if_neg hsame, if_neg hsame]
    rfl

/-- A tag takes no more than what was left of the table. -/
theorem jbdExtractBlockTag_tagBytes_le {tag remain : ℕ} {info : TagInfo}
    (h : jbdExtractBlockTag sb b tag (jbdTagBytes sb) remain = .ok info) :
    info.tagBytes ≤ remain := by
  unfold jbdExtractBlockTag at h
  dsimp only at h
  by_cases hshort : remain < jbdTagBytes sb
  · rw [if_pos hshort] at h
    exact nomatch h
  rw [if_neg hshort] at h
  by_cases hsame : getFlags sb b tag &&& JBD_FLAG_SAME_UUID = 0
  · rw [if_pos hsame] at h
    by_cases huuid : remain - jbdTagBytes sb < UUID_SIZE
    · rw [if_pos huuid] at h
      exact nomatch h
    · rw [if_neg huuid] at h
      obtain rfl := Except.ok.inj h
      dsimp only
      omega
  · rw [if_neg hsame] at h
    obtain rfl := Except.ok.inj h
    dsimp only
    omega

theorem checkedTableTags_eq (fuel : ℕ) {tag remain : ℕ} (hin : tag + remain ≤ bs) :
    checkedTableTags sb b fuel tag remain = some (tableTags sb b fuel tag remain) := by
  induction fuel generalizing tag remain with
  | zero => rfl
  | succ fuel ih =>
      rw [checkedTableTags, tableTags, jbdIterateBlockTableLoop]
      by_cases hzero : remain = 0
      · rw [if_pos hzero, if_pos hzero]
      rw [if_neg hzero, if_neg hzero, checkedExtractBlockTag_eq hin]
      cases hinfo : jbdExtractBlockTag sb b tag (jbdTagBytes sb) remain with
      | error e => rfl
      | ok info =>
          have hle := jbdExtractBlockTag_tagBytes_le hinfo
          by_cases hlast : info.lastTag = true
          · simp [hlast]
          · have hrest : checkedTableTags sb b fuel (tag + info.tagBytes) (remain - info.tagBytes)
                = some (tableTags sb b fuel (tag + info.tagBytes) (remain - info.tagBytes)) :=
              ih (by omega)
            simp only [Option.bind_eq_bind, Option.bind_some, hlast, Bool.false_eq_true, if_false,
              hrest, List.nil_append, tableTags_append]
            rfl

/-- **The walk over the tags of a block stays inside it.** -/
theorem checkedDescriptorTags_eq (sb : JbdSb bs) (b : Buf bs) :
    checkedDescriptorTags sb b = some (descriptorTags sb b) := by
  have hbs := sb.block_size
  have hin : BHDR_SIZE + tagTableSpace sb ≤ bs := by
    unfold tagTableSpace BHDR_SIZE
    omega
  rw [descriptorTags_eq]
  exact checkedTableTags_eq _ hin

theorem mapM_checkedBE_eq {w : ℕ} {o : ℕ → ℕ} {is : List ℕ} (h : ∀ i ∈ is, o i + w ≤ bs) :
    is.mapM (fun i => checkedBE w b (o i)) = some (is.map fun i => getBE w b (o i)) := by
  induction is with
  | nil => rfl
  | cons i rest ih =>
      rw [List.mapM_cons, checkedBE_eq (h i List.mem_cons_self),
        ih fun j hj => h j (List.mem_cons_of_mem _ hj)]
      rfl

/-- A record that the count covers ends where the count ends at the latest. -/
theorem record_le {count len i : ℕ} (hi : i < count / len) : (i + 1) * len ≤ count :=
  calc (i + 1) * len ≤ count / len * len := Nat.mul_le_mul_right _ hi
    _ ≤ count := Nat.div_mul_le_self _ _

/-- **The walk over the records of a block stays inside it.** -/
theorem checkedRevokeEntries_eq (sb : JbdSb bs) (b : Buf bs) :
    checkedRevokeEntries sb b = some (revokeEntries sb b) := by
  have hroom : 12 + 4 ≤ bs := by have := sb.block_size; omega
  unfold checkedRevokeEntries revokeEntries
  rw [checkedBE_eq hroom, Option.bind_eq_bind, Option.bind_some]
  dsimp only
  by_cases hcount : get32 b 12 < REVOKE_HEADER_SIZE ∨ get32 b 12 > bs
  · rw [if_pos hcount, if_pos hcount]
    rfl
  rw [if_neg hcount, if_neg hcount]
  refine mapM_checkedBE_eq fun i hi => ?_
  have hle : (i + 1) * revokeRecordLen sb ≤ get32 b 12 - REVOKE_HEADER_SIZE :=
    record_le (List.mem_range.mp hi)
  rw [not_or, not_lt, not_lt] at hcount
  rw [Nat.add_mul, Nat.one_mul] at hle
  omega

end Jbd
