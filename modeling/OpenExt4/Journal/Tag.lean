import OpenExt4.Journal.Format

set_option autoImplicit false

/-! # Block tags

A descriptor block is a header followed by tags, one for each logged block. This module has both
sides of a tag, `jbd_write_block_tag` and `jbd_extract_block_tag`, and the loop that reads a whole
table of them. The two tag structures differ in the width and place of their flags and in their
size; whichever is in use, the flags that matter are the low 16 bits and lie at bytes 6 and 7. -/

namespace Jbd

open Bytes

variable {bs : ℕ}

/-- Where `struct jbd_block_tag3` or `struct jbd_block_tag` keeps its flags, and its size. -/
structure TagLayout where
  size : ℕ
  flagsAt : ℕ
  flagsWidth : ℕ

def tagLayout (sb : JbdSb bs) : TagLayout :=
  if sb.hasIncompat JBD_FEATURE_INCOMPAT_CSUM_V3 then ⟨16, 4, 4⟩ else ⟨12, 6, 2⟩

/-- `struct tag_info`. -/
structure TagInfo where
  tagBytes : ℕ
  block : ℕ
  isEscape : Bool
  uuidExist : Bool
  uuid : Buf UUID_SIZE
  lastTag : Bool
  checksum : ℕ

def getFlags (sb : JbdSb bs) (b : Buf bs) (tag : ℕ) : ℕ :=
  getBE (tagLayout sb).flagsWidth b (tag + (tagLayout sb).flagsAt)

/-- `jbd_set(tag, flags, jbd_get(tag, flags) | mask)`, when `set` asks for it. -/
def orFlags (sb : JbdSb bs) (b : Buf bs) (tag : ℕ) (set : Bool) (mask : ℕ) : Buf bs :=
  if set then
    putBE (tagLayout sb).flagsWidth b (tag + (tagLayout sb).flagsAt) (getFlags sb b tag ||| mask)
  else b

/-- `jbd_extract_block_tag`, of the tag at offset `tag` with `remain` bytes of the table left.
    The fields of the tag information that the source leaves unset are zero here. -/
def jbdExtractBlockTag (sb : JbdSb bs) (b : Buf bs) (tag tagBytes remain : ℕ) :
    Except Errno TagInfo :=
  if remain < tagBytes then .error .EINVAL
  else
    let flags := getFlags sb b tag
    let info : TagInfo :=
      { tagBytes := tagBytes
        block := if sb.hasIncompat JBD_FEATURE_INCOMPAT_64BIT then
            get32 b tag ||| get32 b (tag + 8) <<< 32
          else get32 b tag
        isEscape := flags &&& JBD_FLAG_ESCAPE != 0
        uuidExist := false
        uuid := zeros UUID_SIZE
        lastTag := flags &&& JBD_FLAG_LAST_TAG != 0
        checksum := 0 }
    if flags &&& JBD_FLAG_SAME_UUID = 0 then
      if remain - tagBytes < UUID_SIZE then .error .EINVAL
      else
        .ok { info with
          uuidExist := true
          tagBytes := tagBytes + UUID_SIZE
          uuid := slice b (tag + tagBytes) UUID_SIZE }
    else .ok info

/-- `jbd_block_tag_csum_set`. Version 2 stores `(uint16_t)to_be32(checksum)`: on a little-endian
    machine the two bytes are the high half of the checksum. -/
def jbdBlockTagCsumSet (sb : JbdSb bs) (b : Buf bs) (tag checksum : ℕ) : Buf bs :=
  if jbdHasCsum sb = 0 then b
  else if jbdHasCsum sb = 2 then putBE 2 b (tag + 4) (checksum / 2 ^ 16)
  else set32 b (tag + 12) checksum

/-- `jbd_write_block_tag`. A refusal (`EINVAL`) comes with the block as it was left: a tag whose
    UUID does not fit has been partly written by then. Success comes with the bytes used. -/
def jbdWriteBlockTag (sb : JbdSb bs) (b : Buf bs) (tag remain : ℕ) (info : TagInfo) :
    Except (Buf bs) (Buf bs × ℕ) :=
  let tagBytes := jbdTagBytes sb
  if remain < tagBytes then .error b
  else
    let b := patch b tag (tagLayout sb).size fun _ => 0
    let b := set32 b tag info.block
    let b := if sb.hasIncompat JBD_FEATURE_INCOMPAT_64BIT then
        set32 b (tag + 8) (info.block >>> 32)
      else b
    if info.uuidExist && remain - tagBytes < UUID_SIZE then .error b
    else
      let b := if info.uuidExist then copy b (tag + tagBytes) info.uuid 0 UUID_SIZE else b
      let b := orFlags sb b tag (!info.uuidExist) JBD_FLAG_SAME_UUID
      let b := jbdBlockTagCsumSet sb b tag info.checksum
      let b := orFlags sb b tag info.lastTag JBD_FLAG_LAST_TAG
      let b := orFlags sb b tag info.isEscape JBD_FLAG_ESCAPE
      .ok (b, if info.uuidExist then tagBytes + UUID_SIZE else tagBytes)

/-! ## The flags of a tag -/

/-- The low 16 bits of the flags, which both layouts keep in bytes 6 and 7. -/
def lowFlags (b : Buf bs) (tag : ℕ) : ℕ := getBE 2 b (tag + 6)

theorem lowFlags_lt (b : Buf bs) (tag : ℕ) : lowFlags b tag < 2 ^ 16 := getBE_lt 2 b (tag + 6)

/-- The low half of a 32-bit flags word. -/
theorem get32_mod_eq_lowFlags (b : Buf bs) (tag : ℕ) :
    getBE 4 b (tag + 4) % 2 ^ 16 = lowFlags b tag := by
  rw [show 4 = 2 + 2 from rfl, getBE_add]
  exact Nat.mul_add_mod_of_lt (lowFlags_lt b tag)

/-- A test for one of the low flags reads the low 16 bits. -/
theorem getFlags_and (sb : JbdSb bs) (b : Buf bs) (tag : ℕ) {mask : ℕ} (hm : mask < 2 ^ 16) :
    getFlags sb b tag &&& mask = lowFlags b tag &&& mask := by
  unfold getFlags tagLayout
  split
  · calc getBE 4 b (tag + 4) &&& mask
        = (getBE 4 b (tag + 4) &&& mask) % 2 ^ 16 :=
          (Nat.mod_eq_of_lt (lt_of_le_of_lt Nat.and_le_right hm)).symm
      _ = lowFlags b tag &&& mask := by
          rw [Nat.and_mod_two_pow, get32_mod_eq_lowFlags, Nat.mod_eq_of_lt hm]
  · rfl

/-- Setting a low flag sets it in the low 16 bits. -/
theorem lowFlags_orFlags (sb : JbdSb bs) {b : Buf bs} {tag mask : ℕ} {set : Bool}
    (hin : tag + 8 ≤ bs) (hm : mask < 2 ^ 16) :
    lowFlags (orFlags sb b tag set mask) tag = lowFlags b tag ||| (if set then mask else 0) := by
  cases set with
  | false => simp [orFlags]
  | true =>
      have hor : (lowFlags b tag ||| mask) % 2 ^ 16 = lowFlags b tag ||| mask :=
        Nat.mod_eq_of_lt (Nat.or_lt_two_pow (lowFlags_lt b tag) hm)
      simp only [orFlags, if_true, getFlags, tagLayout]
      split
      · have hstore : getBE 2 (putBE 4 b (tag + 4) (getBE 4 b (tag + 4) ||| mask)) (tag + 6)
            = (getBE 4 b (tag + 4) ||| mask) % 256 ^ 2 :=
          getBE_putBE_suffix (W := 4) (w := 2) (by omega) (by omega)
        rw [lowFlags, hstore, show (256 : ℕ) ^ 2 = 2 ^ 16 from rfl, Nat.or_mod_two_pow,
          get32_mod_eq_lowFlags, Nat.mod_eq_of_lt hm]
      · exact (getBE_putBE (by omega)).trans hor

/-- The tag checksum lies outside the low flags. -/
theorem lowFlags_jbdBlockTagCsumSet (sb : JbdSb bs) (b : Buf bs) (tag checksum : ℕ) :
    lowFlags (jbdBlockTagCsumSet sb b tag checksum) tag = lowFlags b tag := by
  unfold jbdBlockTagCsumSet lowFlags
  split_ifs
  · rfl
  · exact getBE_putBE_of_disjoint (by omega)
  · exact getBE_putBE_of_disjoint (by omega)

/-! ## What a stored tag reads back as -/

/-- The block number fits the tag: 64 bits with the feature, 32 bits without. -/
def FitsTag (sb : JbdSb bs) (block : ℕ) : Prop :=
  block < if sb.hasIncompat JBD_FEATURE_INCOMPAT_64BIT then 2 ^ 64 else 2 ^ 32

instance (sb : JbdSb bs) (block : ℕ) : Decidable (FitsTag sb block) :=
  inferInstanceAs (Decidable (_ < _))

/-- The low flags of a written tag. -/
def tagFlags (info : TagInfo) : ℕ :=
  (if !info.uuidExist then JBD_FLAG_SAME_UUID else 0) |||
    (if info.lastTag then JBD_FLAG_LAST_TAG else 0) |||
    (if info.isEscape then JBD_FLAG_ESCAPE else 0)

/-- The bytes at `tag` hold what `info` says. -/
structure TagStored (sb : JbdSb bs) (b : Buf bs) (tag : ℕ) (info : TagInfo) : Prop where
  low : get32 b tag = info.block % 2 ^ 32
  high : sb.hasIncompat JBD_FEATURE_INCOMPAT_64BIT = true →
    get32 b (tag + 8) = info.block / 2 ^ 32 % 2 ^ 32
  flags : lowFlags b tag = tagFlags info
  uuid : info.uuidExist = true → slice b (tag + jbdTagBytes sb) UUID_SIZE = info.uuid

/-- The size of a tag with its UUID part. -/
def tagSize (sb : JbdSb bs) (info : TagInfo) : ℕ :=
  if info.uuidExist then jbdTagBytes sb + UUID_SIZE else jbdTagBytes sb

/-- What extraction returns for a tag that was written as `info`. -/
def readBack (sb : JbdSb bs) (info : TagInfo) : TagInfo :=
  { info with
    tagBytes := tagSize sb info
    uuid := if info.uuidExist then info.uuid else zeros UUID_SIZE
    checksum := 0 }

/-- Bytes a flag or checksum store leaves alone: the block number, its high half, and
    everything past the tag proper. -/
def OffFlags (sb : JbdSb bs) (tag i : ℕ) : Prop :=
  i < tag + 4 ∨ (tag + 8 ≤ i ∧ i < tag + 12) ∨ tag + jbdTagBytes sb ≤ i

theorem get8_orFlags {sb : JbdSb bs} {b : Buf bs} {tag mask i : ℕ} {set : Bool}
    (h : OffFlags sb tag i) : get8 (orFlags sb b tag set mask) i = get8 b i := by
  have hsize := (jbdTagBytes_bounds sb).1
  unfold OffFlags at h
  unfold orFlags tagLayout
  split_ifs
  · exact get8_patch_of_disjoint (by dsimp only; omega)
  · exact get8_patch_of_disjoint (by dsimp only; omega)
  · rfl

theorem get8_jbdBlockTagCsumSet {sb : JbdSb bs} {b : Buf bs} {tag checksum i : ℕ}
    (h : OffFlags sb tag i) : get8 (jbdBlockTagCsumSet sb b tag checksum) i = get8 b i := by
  have hsize := (jbdTagBytes_bounds sb).1
  unfold OffFlags at h
  unfold jbdBlockTagCsumSet
  split_ifs with hnone htwo
  · rfl
  · exact get8_patch_of_disjoint (by omega)
  · -- only version 3 gets here, and its tags are 16 bytes long
    have hv3 : sb.hasIncompat JBD_FEATURE_INCOMPAT_CSUM_V3 = true := by
      unfold jbdHasCsum at hnone htwo
      split_ifs at hnone htwo with h2 h3
      · exact absurd rfl htwo
      · exact h3
      · exact absurd rfl hnone
    have hbytes := jbdTagBytes_v3 hv3
    exact get8_patch_of_disjoint (by omega)

/-- The last steps of `jbd_write_block_tag`: the flags and the checksum. -/
def finishTag (sb : JbdSb bs) (b : Buf bs) (tag : ℕ) (info : TagInfo) : Buf bs :=
  orFlags sb (orFlags sb (jbdBlockTagCsumSet sb
    (orFlags sb b tag (!info.uuidExist) JBD_FLAG_SAME_UUID) tag info.checksum)
    tag info.lastTag JBD_FLAG_LAST_TAG) tag info.isEscape JBD_FLAG_ESCAPE

theorem get8_finishTag {sb : JbdSb bs} {b : Buf bs} {tag i : ℕ} {info : TagInfo}
    (h : OffFlags sb tag i) : get8 (finishTag sb b tag info) i = get8 b i := by
  rw [finishTag, get8_orFlags h, get8_orFlags h, get8_jbdBlockTagCsumSet h, get8_orFlags h]

theorem lowFlags_finishTag {sb : JbdSb bs} {b : Buf bs} {tag : ℕ} {info : TagInfo}
    (hin : tag + 8 ≤ bs) (hzero : lowFlags b tag = 0) :
    lowFlags (finishTag sb b tag info) tag = tagFlags info := by
  rw [finishTag, lowFlags_orFlags sb hin (by decide), lowFlags_orFlags sb hin (by decide),
    lowFlags_jbdBlockTagCsumSet, lowFlags_orFlags sb hin (by decide), hzero, Nat.zero_or]
  rfl

/-- The first steps of `jbd_write_block_tag`: the cleared tag, the block number and the UUID. -/
def beginTag (sb : JbdSb bs) (b : Buf bs) (tag : ℕ) (info : TagInfo) : Buf bs :=
  let b := patch b tag (tagLayout sb).size fun _ => 0
  let b := set32 b tag info.block
  let b := if sb.hasIncompat JBD_FEATURE_INCOMPAT_64BIT then
      set32 b (tag + 8) (info.block >>> 32)
    else b
  if info.uuidExist then copy b (tag + jbdTagBytes sb) info.uuid 0 UUID_SIZE else b

theorem jbdWriteBlockTag_eq (sb : JbdSb bs) (b : Buf bs) (tag remain : ℕ) (info : TagInfo)
    (hfit : tagSize sb info ≤ remain) :
    jbdWriteBlockTag sb b tag remain info
      = .ok (finishTag sb (beginTag sb b tag info) tag info, tagSize sb info) := by
  unfold tagSize at hfit ⊢
  have hroom : ¬ remain < jbdTagBytes sb := by split at hfit <;> omega
  have huuid : ¬ ((info.uuidExist && decide (remain - jbdTagBytes sb < UUID_SIZE)) = true) := by
    cases hu : info.uuidExist with
    | false => simp
    | true =>
        rw [if_pos hu] at hfit
        simp
        omega
  simp only [jbdWriteBlockTag]
  rw [if_neg hroom, if_neg huuid]
  rfl

theorem jbdWriteBlockTag_full (sb : JbdSb bs) (b : Buf bs) (tag remain : ℕ) (info : TagInfo)
    (hfull : remain < jbdTagBytes sb) : jbdWriteBlockTag sb b tag remain info = .error b := by
  simp only [jbdWriteBlockTag]
  rw [if_pos hfull]

section BeginTag

variable {sb : JbdSb bs} {b : Buf bs} {tag : ℕ} {info : TagInfo}

theorem get8_beginTag_of_lt {i : ℕ} (h : i < tag) :
    get8 (beginTag sb b tag info) i = get8 b i := by
  unfold beginTag
  dsimp only
  split_ifs <;> simp (disch := omega) only [copy, set32, putBE, get8_patch_of_disjoint]

theorem lowFlags_beginTag (hin : tag + tagSize sb info ≤ bs) :
    lowFlags (beginTag sb b tag info) tag = 0 := by
  have hsize := (jbdTagBytes_bounds sb).1
  have hlong : sb.hasIncompat JBD_FEATURE_INCOMPAT_64BIT = true → 12 ≤ jbdTagBytes sb :=
    jbdTagBytes_64bit
  have hlayout : 12 ≤ (tagLayout sb).size := by unfold tagLayout; split <;> simp
  unfold tagSize at hin
  unfold beginTag lowFlags
  dsimp only
  split_ifs at hin ⊢ <;>
    simp (disch := omega) only [copy, set32, putBE, getBE_patch_of_disjoint, getBE_patch_zero]

theorem get32_beginTag (hin : tag + tagSize sb info ≤ bs) :
    get32 (beginTag sb b tag info) tag = info.block % 2 ^ 32 := by
  have hsize := (jbdTagBytes_bounds sb).1
  unfold tagSize at hin
  have hstore (c : Buf bs) : getBE 4 (putBE 4 c tag info.block) tag = info.block % 2 ^ 32 :=
    getBE_putBE (by split at hin <;> omega)
  unfold beginTag get32
  dsimp only
  split_ifs <;>
    simp (disch := omega) only [copy, set32, getBE_patch_of_disjoint, getBE_putBE_of_disjoint,
      hstore]

theorem get32_beginTag_high (hin : tag + tagSize sb info ≤ bs)
    (h64 : sb.hasIncompat JBD_FEATURE_INCOMPAT_64BIT = true) :
    get32 (beginTag sb b tag info) (tag + 8) = info.block / 2 ^ 32 % 2 ^ 32 := by
  have hsize := jbdTagBytes_64bit h64
  unfold tagSize at hin
  have hstore (c : Buf bs) : getBE 4 (putBE 4 c (tag + 8) (info.block >>> 32)) (tag + 8)
      = info.block / 2 ^ 32 % 2 ^ 32 := by
    rw [getBE_putBE (by split at hin <;> omega), Nat.shiftRight_eq_div_pow]
    rfl
  unfold beginTag get32
  dsimp only
  rw [if_pos h64]
  split_ifs <;>
    simp (disch := omega) only [copy, set32, getBE_patch_of_disjoint, hstore]

theorem slice_beginTag (hin : tag + tagSize sb info ≤ bs) (hu : info.uuidExist = true) :
    slice (beginTag sb b tag info) (tag + jbdTagBytes sb) UUID_SIZE = info.uuid := by
  unfold tagSize at hin
  rw [if_pos hu] at hin
  simp only [beginTag, hu, if_true]
  exact slice_copy (by omega)

end BeginTag

/-- A tag that fits is written, and its bytes then hold what it says. Nothing before it moves. -/
theorem tagStored_write {sb : JbdSb bs} (b : Buf bs) {tag : ℕ} {info : TagInfo}
    (hin : tag + tagSize sb info ≤ bs) :
    TagStored sb (finishTag sb (beginTag sb b tag info) tag info) tag info := by
  have hsize := (jbdTagBytes_bounds sb).1
  have hlong : sb.hasIncompat JBD_FEATURE_INCOMPAT_64BIT = true → 12 ≤ jbdTagBytes sb :=
    jbdTagBytes_64bit
  have hin8 : tag + 8 ≤ bs := by unfold tagSize at hin; split at hin <;> omega
  constructor
  · rw [get32, getBE_congr fun i _ _ => get8_finishTag (Or.inl (by omega))]
    exact get32_beginTag hin
  · intro h64
    rw [get32, getBE_congr fun i _ _ => get8_finishTag (Or.inr (Or.inl (by omega)))]
    exact get32_beginTag_high hin h64
  · exact lowFlags_finishTag hin8 (lowFlags_beginTag hin)
  · intro hu
    rw [slice_congr fun i _ _ => get8_finishTag (Or.inr (Or.inr (by omega)))]
    exact slice_beginTag hin hu

/-- What is stored in a tag depends on the bytes of the tag only. -/
theorem TagStored.congr {sb : JbdSb bs} {b c : Buf bs} {tag : ℕ} {info : TagInfo}
    (h : TagStored sb b tag info)
    (heq : ∀ i, tag ≤ i → i < tag + tagSize sb info → get8 c i = get8 b i) :
    TagStored sb c tag info := by
  have hsize := (jbdTagBytes_bounds sb).1
  have hle : jbdTagBytes sb ≤ tagSize sb info := by unfold tagSize; split <;> omega
  constructor
  · rw [get32, getBE_congr fun i hlo hhi => heq i hlo (by omega)]
    exact h.low
  · intro h64
    have hlong := jbdTagBytes_64bit h64
    rw [get32, getBE_congr fun i hlo hhi => heq i (by omega) (by omega)]
    exact h.high h64
  · rw [lowFlags, getBE_congr fun i hlo hhi => heq i (by omega) (by omega)]
    exact h.flags
  · intro hu
    rw [slice_congr fun i hlo hhi => heq i (by omega) (by simp only [tagSize, hu, if_true]; omega)]
    exact h.uuid hu

/-- **A stored tag reads back**: block, escape flag, last-tag flag and UUID. -/
theorem TagStored.extract {sb : JbdSb bs} {b : Buf bs} {tag remain : ℕ} {info : TagInfo}
    (h : TagStored sb b tag info) (hblock : FitsTag sb info.block)
    (hfit : tagSize sb info ≤ remain) :
    jbdExtractBlockTag sb b tag (jbdTagBytes sb) remain = .ok (readBack sb info) := by
  have hroom : ¬ remain < jbdTagBytes sb := by
    unfold tagSize at hfit
    split at hfit <;> omega
  have hesc : (getFlags sb b tag &&& JBD_FLAG_ESCAPE != 0) = info.isEscape := by
    rw [getFlags_and sb b tag (by decide), h.flags]
    unfold tagFlags
    cases info.uuidExist <;> cases info.lastTag <;> cases info.isEscape <;> rfl
  have hlast : (getFlags sb b tag &&& JBD_FLAG_LAST_TAG != 0) = info.lastTag := by
    rw [getFlags_and sb b tag (by decide), h.flags]
    unfold tagFlags
    cases info.uuidExist <;> cases info.lastTag <;> cases info.isEscape <;> rfl
  have hsame : getFlags sb b tag &&& JBD_FLAG_SAME_UUID = 0 ↔ info.uuidExist = true := by
    rw [getFlags_and sb b tag (by decide), h.flags]
    unfold tagFlags
    cases info.uuidExist <;> cases info.lastTag <;> cases info.isEscape <;> decide
  have hnum : (if sb.hasIncompat JBD_FEATURE_INCOMPAT_64BIT then
      get32 b tag ||| get32 b (tag + 8) <<< 32 else get32 b tag) = info.block := by
    unfold FitsTag at hblock
    split at hblock
    · next h64 =>
        rw [if_pos h64, h.low, h.high h64, Nat.or_comm,
          ← Nat.shiftLeft_add_eq_or_of_lt (Nat.mod_lt _ (by decide)), Nat.shiftLeft_eq]
        omega
    · next h64 =>
        rw [if_neg h64, h.low]
        omega
  unfold jbdExtractBlockTag
  dsimp only
  rw [if_neg hroom, hnum, hesc, hlast]
  unfold tagSize at hfit
  cases hu : info.uuidExist with
  | true =>
      rw [if_pos (hsame.mpr hu), if_neg (by simp only [hu, if_true] at hfit; omega), h.uuid hu]
      simp [readBack, tagSize, hu]
  | false =>
      rw [if_neg (by rw [hsame, hu]; simp)]
      simp [readBack, tagSize, hu]

/-! ## Walking a table of tags -/

/-- The loop of `jbd_iterate_block_table`, at offset `tag` with `remain` bytes left. Every tag
    uses up table space, so that a `fuel` of the table's size does not run out. -/
def jbdIterateBlockTableLoop {σ : Type} (sb : JbdSb bs) (b : Buf bs) (tagBytes : ℕ)
    (func : TagInfo → σ → σ) : ℕ → ℕ → ℕ → σ → σ
  | 0, _, _, arg => arg
  | fuel + 1, tag, remain, arg =>
      if remain = 0 then arg
      else
        match jbdExtractBlockTag sb b tag tagBytes remain with
        | .error _ => arg
        | .ok info =>
            if info.lastTag then func info arg
            else
              jbdIterateBlockTableLoop sb b tagBytes func fuel (tag + info.tagBytes)
                (remain - info.tagBytes) (func info arg)

/-- `jbd_iterate_block_table`: call `func` on every tag of the table at `tagStart`. -/
def jbdIterateBlockTable {σ : Type} (sb : JbdSb bs) (b : Buf bs) (tagStart tagTblSize : ℕ)
    (func : TagInfo → σ → σ) (arg : σ) : σ :=
  let tagTblSize :=
    if sb.hasIncompat JBD_FEATURE_INCOMPAT_CSUM_V2 ||
        sb.hasIncompat JBD_FEATURE_INCOMPAT_CSUM_V3 then tagTblSize - BLOCK_TAIL_SIZE
    else tagTblSize
  jbdIterateBlockTableLoop sb b (jbdTagBytes sb) func tagTblSize tagStart tagTblSize arg

/-- The tags the loop goes through, in order. -/
def tableTags (sb : JbdSb bs) (b : Buf bs) (fuel tag remain : ℕ) : List TagInfo :=
  jbdIterateBlockTableLoop sb b (jbdTagBytes sb) (fun info tags => tags ++ [info]) fuel tag remain
    []

/-- The tags of a descriptor block. -/
def descriptorTags (sb : JbdSb bs) (b : Buf bs) : List TagInfo :=
  jbdIterateBlockTable sb b BHDR_SIZE (bs - BHDR_SIZE) (fun info tags => tags ++ [info]) []

/-- What the loop hands to its callback does not depend on the callback. -/
theorem jbdIterateBlockTableLoop_eq_foldl {σ : Type} (sb : JbdSb bs) (b : Buf bs)
    (func : TagInfo → σ → σ) (fuel tag remain : ℕ) (arg : σ) (tags : List TagInfo)
    (start : σ) (harg : arg = tags.foldl (fun a info => func info a) start) :
    jbdIterateBlockTableLoop sb b (jbdTagBytes sb) func fuel tag remain arg
      = (jbdIterateBlockTableLoop sb b (jbdTagBytes sb) (fun info tags => tags ++ [info]) fuel tag
          remain tags).foldl (fun a info => func info a) start := by
  induction fuel generalizing tag remain arg tags with
  | zero => exact harg
  | succ fuel ih =>
      simp only [jbdIterateBlockTableLoop]
      split
      · exact harg
      · split
        · exact harg
        · next info _ =>
            have hnext : func info arg
                = (tags ++ [info]).foldl (fun a info => func info a) start := by
              rw [List.foldl_append, ← harg]
              rfl
            split
            · exact hnext
            · exact ih _ _ _ _ hnext

theorem jbdIterateBlockTable_eq_foldl {σ : Type} (sb : JbdSb bs) (b : Buf bs)
    (func : TagInfo → σ → σ) (arg : σ) :
    jbdIterateBlockTable sb b BHDR_SIZE (bs - BHDR_SIZE) func arg
      = (descriptorTags sb b).foldl (fun a info => func info a) arg := by
  unfold descriptorTags jbdIterateBlockTable
  exact jbdIterateBlockTableLoop_eq_foldl sb b func _ _ _ arg [] arg rfl

/-- The same walk with the tags already seen in front. -/
theorem tableTags_append (sb : JbdSb bs) (b : Buf bs) (fuel tag remain : ℕ)
    (seen : List TagInfo) :
    jbdIterateBlockTableLoop sb b (jbdTagBytes sb) (fun info tags => tags ++ [info]) fuel tag remain
        seen
      = seen ++ tableTags sb b fuel tag remain := by
  have hfold (l : List TagInfo) :
      l.foldl (fun a info => a ++ [info]) seen = seen ++ l := by
    induction l generalizing seen with
    | nil => simp
    | cons info rest ih => rw [List.foldl_cons, ih, List.append_assoc]; rfl
  rw [tableTags, ← hfold]
  exact jbdIterateBlockTableLoop_eq_foldl sb b _ fuel tag remain seen [] seen rfl

/-- The tags `infos` stand one behind the other from offset `tag` on. -/
def StoredTags (sb : JbdSb bs) (b : Buf bs) : ℕ → List TagInfo → Prop
  | _, [] => True
  | tag, info :: rest =>
      TagStored sb b tag info ∧ FitsTag sb info.block ∧
        StoredTags sb b (tag + tagSize sb info) rest

/-- The table space of a list of tags. -/
def tableSize (sb : JbdSb bs) (infos : List TagInfo) : ℕ := (infos.map (tagSize sb)).sum

section StoredTags

variable {sb : JbdSb bs} {b c : Buf bs}

theorem tagSize_bounds (sb : JbdSb bs) (info : TagInfo) :
    jbdTagBytes sb ≤ tagSize sb info ∧ tagSize sb info ≤ jbdTagBytes sb + UUID_SIZE := by
  unfold tagSize
  split <;> omega

theorem StoredTags.congr {tag : ℕ} {infos : List TagInfo} (h : StoredTags sb b tag infos)
    (heq : ∀ i, tag ≤ i → i < tag + tableSize sb infos → get8 c i = get8 b i) :
    StoredTags sb c tag infos := by
  induction infos generalizing tag with
  | nil => trivial
  | cons info rest ih =>
      obtain ⟨htag, hblock, hrest⟩ := h
      have hsum : tableSize sb (info :: rest) = tagSize sb info + tableSize sb rest := by
        simp [tableSize]
      exact ⟨htag.congr fun i hlo hhi => heq i hlo (by omega), hblock,
        ih hrest fun i hlo hhi => heq i (by omega) (by omega)⟩

theorem StoredTags.snoc {tag : ℕ} {infos : List TagInfo} {info : TagInfo}
    (h : StoredTags sb b tag infos) (hlast : TagStored sb b (tag + tableSize sb infos) info)
    (hblock : FitsTag sb info.block) : StoredTags sb b tag (infos ++ [info]) := by
  induction infos generalizing tag with
  | nil => exact ⟨by simpa [tableSize] using hlast, hblock, trivial⟩
  | cons first rest ih =>
      obtain ⟨htag, hfirst, hrest⟩ := h
      refine ⟨htag, hfirst, ih hrest ?_⟩
      simpa [tableSize, Nat.add_assoc] using hlast

theorem StoredTags.of_snoc {tag : ℕ} {infos : List TagInfo} {info : TagInfo}
    (h : StoredTags sb b tag (infos ++ [info])) :
    StoredTags sb b tag infos ∧ TagStored sb b (tag + tableSize sb infos) info ∧
      FitsTag sb info.block := by
  induction infos generalizing tag with
  | nil => exact ⟨trivial, by simpa [tableSize] using h.1, h.2.1⟩
  | cons first rest ih =>
      obtain ⟨htag, hfirst, hrest⟩ := h
      obtain ⟨hfront, hlast, hblock⟩ := ih hrest
      refine ⟨⟨htag, hfirst, hfront⟩, ?_, hblock⟩
      simpa [tableSize, Nat.add_assoc] using hlast

/-- The walk goes through stored tags none of which is marked last. -/
theorem tableTags_stored {fuel tag remain : ℕ} {infos : List TagInfo}
    (h : StoredTags sb b tag infos) (hmid : ∀ info ∈ infos, info.lastTag = false)
    (hroom : tableSize sb infos ≤ remain) (hfuel : remain ≤ fuel) :
    ∃ fuel', remain - tableSize sb infos ≤ fuel' ∧
      tableTags sb b fuel tag remain = infos.map (readBack sb) ++
        tableTags sb b fuel' (tag + tableSize sb infos) (remain - tableSize sb infos) := by
  induction infos generalizing fuel tag remain with
  | nil => exact ⟨fuel, by simpa [tableSize] using hfuel, by simp [tableSize]⟩
  | cons info rest ih =>
      obtain ⟨htag, hblock, hrest⟩ := h
      have hsum : tableSize sb (info :: rest) = tagSize sb info + tableSize sb rest := by
        simp [tableSize]
      have hpos := (jbdTagBytes_bounds sb).1
      have hsize := (tagSize_bounds sb info).1
      obtain ⟨fuel, rfl⟩ : ∃ f, fuel = f + 1 := ⟨fuel - 1, by omega⟩
      have hroom' : tableSize sb rest ≤ remain - tagSize sb info := by omega
      have hfuel' : remain - tagSize sb info ≤ fuel := by omega
      obtain ⟨fuel', hleft, htags⟩ :=
        ih hrest (fun i hi => hmid i (List.mem_cons_of_mem _ hi)) hroom' hfuel'
      refine ⟨fuel', by omega, ?_⟩
      have hstep : tableTags sb b (fuel + 1) tag remain = readBack sb info ::
          tableTags sb b fuel (tag + tagSize sb info) (remain - tagSize sb info) := by
        have hnotlast : (readBack sb info).lastTag = false := hmid info (List.mem_cons_self ..)
        rw [tableTags, jbdIterateBlockTableLoop, if_neg (by omega),
          htag.extract hblock (by omega)]
        simp only [hnotlast, Bool.false_eq_true, if_false, List.nil_append]
        rw [tableTags_append]
        rfl
      rw [hstep, htags, hsum]
      simp [Nat.add_assoc, Nat.sub_sub]

/-- The walk ends where the next tag does not fit any more. -/
theorem tableTags_full {fuel tag remain : ℕ} (hfull : remain < jbdTagBytes sb) :
    tableTags sb b fuel tag remain = [] := by
  cases fuel with
  | zero => rfl
  | succ fuel =>
      rw [tableTags, jbdIterateBlockTableLoop]
      split
      · rfl
      · simp [jbdExtractBlockTag, hfull]

/-- The walk ends with a tag marked last. -/
theorem tableTags_last {fuel tag remain : ℕ} {info : TagInfo} (h : TagStored sb b tag info)
    (hblock : FitsTag sb info.block) (hlast : info.lastTag = true)
    (hroom : tagSize sb info ≤ remain) (hfuel : remain ≤ fuel) :
    tableTags sb b fuel tag remain = [readBack sb info] := by
  have hpos := (jbdTagBytes_bounds sb).1
  have hsize := (tagSize_bounds sb info).1
  obtain ⟨fuel, rfl⟩ : ∃ f, fuel = f + 1 := ⟨fuel - 1, by omega⟩
  have hread : (readBack sb info).lastTag = true := hlast
  rw [tableTags, jbdIterateBlockTableLoop, if_neg (by omega), h.extract hblock hroom]
  simp [hread]

/-- The space for tags in a descriptor block. -/
def tagTableSpace (sb : JbdSb bs) : ℕ := bs - BHDR_SIZE - tailSize sb

theorem descriptorTags_eq (sb : JbdSb bs) (b : Buf bs) :
    descriptorTags sb b = tableTags sb b (tagTableSpace sb) BHDR_SIZE (tagTableSpace sb) := by
  unfold descriptorTags jbdIterateBlockTable tagTableSpace tailSize
  by_cases hc : jbdHasCsum sb = 0
  · have hoff := mt (jbdHasCsum_ne_zero sb).mpr (not_not.mpr hc)
    rw [if_neg hoff, if_pos hc]
    rfl
  · rw [if_pos ((jbdHasCsum_ne_zero sb).mp hc), if_neg hc]
    rfl

/-- A descriptor block filled with tags up to the point where no further one fits. -/
theorem descriptorTags_of_full {infos : List TagInfo} (h : StoredTags sb b BHDR_SIZE infos)
    (hmid : ∀ info ∈ infos, info.lastTag = false)
    (hroom : tableSize sb infos ≤ tagTableSpace sb)
    (hfull : tagTableSpace sb - tableSize sb infos < jbdTagBytes sb) :
    descriptorTags sb b = infos.map (readBack sb) := by
  obtain ⟨fuel', _, htags⟩ := tableTags_stored h hmid hroom le_rfl
  rw [descriptorTags_eq, htags, tableTags_full hfull, List.append_nil]

/-- A descriptor block whose final tag is marked last. -/
theorem descriptorTags_of_last {infos : List TagInfo} {info : TagInfo}
    (h : StoredTags sb b BHDR_SIZE infos) (hmid : ∀ info ∈ infos, info.lastTag = false)
    (hstored : TagStored sb b (BHDR_SIZE + tableSize sb infos) info)
    (hblock : FitsTag sb info.block) (hlast : info.lastTag = true)
    (hroom : tableSize sb infos + tagSize sb info ≤ tagTableSpace sb) :
    descriptorTags sb b = (infos ++ [info]).map (readBack sb) := by
  have hinfos : tableSize sb infos ≤ tagTableSpace sb := by omega
  have hinfo : tagSize sb info ≤ tagTableSpace sb - tableSize sb infos := by omega
  obtain ⟨fuel', hfuel', htags⟩ := tableTags_stored h hmid hinfos le_rfl
  rw [descriptorTags_eq, htags, tableTags_last hstored hblock hlast hinfo hfuel', List.map_append]
  rfl

end StoredTags

end Jbd
