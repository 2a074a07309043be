import Mathlib.Algebra.BigOperators.Group.Finset.Basic
import OpenExt4.Balloc.Alloc
import OpenExt4.Balloc.LazyBitmap

set_option autoImplicit false

/-! # The inode allocator

`ext4_ialloc.c` on what it works on: the group descriptors with their inode bitmaps, the free count
of the superblock and the group the last inode came from. A descriptor is looked at through
`ext4_fs_get_block_group_ref`, which builds the bitmaps and the inode table of a group on first
use; the block bitmap it builds is the one of `Balloc.LazyBitmap` and no part of this state. A
block access that fails is part of the state, so that each function keeps its error paths. -/

namespace Ext4.OnMedium

open Bytes Ext4b

variable {n : ℕ}

/-! ## The state -/

/-- `EXT4_MAX_BLOCK_GROUP_DESCRIPTOR_SIZE`. -/
def EXT4_MAX_BLOCK_GROUP_DESCRIPTOR_SIZE : ℕ := 64

/-- A slot of the group descriptor table, with the inode bitmap it names, its flags, and the errors
    of reading it, of the two bitmaps' buffers (`blockBitmapErr`, `noreadErr`), of zeroing the inode
    table and of reading the inode bitmap. -/
structure InodeGroup (n : ℕ) where
  blockUninit : Bool
  inodeUninit : Bool
  itableZeroed : Bool
  bitmap : Buf n
  csumLo : ℕ
  csumHi : ℕ
  freeInodes : ℕ
  usedDirs : ℕ
  itableUnused : ℕ
  descErr : Option ReadErr
  blockBitmapErr : Option ReadErr
  noreadErr : Option ReadErr
  tableErr : Option ReadErr
  bitmapErr : Option ReadErr

/-- What the inode allocator works on. -/
structure InodeFs (n : ℕ) where
  groups : ℕ → InodeGroup n
  freeInodes : ℕ
  lastInodeBgId : ℕ

/-- Is the inode of bit `i` in use? None is where the bitmap is not built yet. -/
def InodeGroup.used (bg : InodeGroup n) (i : ℕ) : Bool := !bg.inodeUninit && bit bg.bitmap i

/-- The group as a look at it left it. -/
def InodeFs.putGroup (fs : InodeFs n) (bgid : ℕ) (bg : InodeGroup n) : InodeFs n :=
  { fs with groups := Function.update fs.groups bgid bg }

section Source

variable (s : Sblock)

def metadataCsum : Bool := hasBits s.featureRoCompat 0x0400

/-- The values the counters of a descriptor have room for: without the upper halves of a long
    descriptor, 16 bits. -/
def counterRoom : ℕ :=
  if ext4SbGetDescSize s > EXT4_MIN_BLOCK_GROUP_DESCRIPTOR_SIZE then 2 ^ 32 else 2 ^ 16

/-- What a counter of a descriptor keeps of a `uint32_t`. -/
def stored (cnt : ℕ) : ℕ := cnt % 2 ^ 32 % counterRoom s

/-! ## Checksums -/

section Csum

variable (crc32c : List UInt8 → ℕ) (bmap : Buf n)

/-- `ext4_ialloc_bitmap_csum`, with the seed in `crc32c`. -/
def ext4IallocBitmapCsum : ℕ :=
  if metadataCsum s then crc32c ((toList bmap).take ((s.inodesPerGroup + 7) / 8)) % 2 ^ 32 else 0

/-- `ext4_ialloc_set_bitmap_csum`. -/
def ext4IallocSetBitmapCsum (bg : InodeGroup n) : InodeGroup n :=
  let csum := ext4IallocBitmapCsum s crc32c bmap
  if metadataCsum s then
    { bg with
      csumLo := csum % 2 ^ 16
      csumHi := if ext4SbGetDescSize s = EXT4_MAX_BLOCK_GROUP_DESCRIPTOR_SIZE then csum / 2 ^ 16
        else bg.csumHi }
  else bg

/-- `ext4_ialloc_verify_bitmap_csum`. -/
def ext4IallocVerifyBitmapCsum (bg : InodeGroup n) : Bool :=
  let csum := ext4IallocBitmapCsum s crc32c bmap
  !metadataCsum s || bg.csumLo == csum % 2 ^ 16 &&
    (ext4SbGetDescSize s != EXT4_MAX_BLOCK_GROUP_DESCRIPTOR_SIZE || bg.csumHi == csum / 2 ^ 16)

end Csum

/-! ## Looking at a group -/

/-- The bitmap `ext4_fs_init_inode_bitmap` writes. -/
def emptyInodeBitmap (bmap : Buf n) : Buf n :=
  let start := s.inodesPerGroup
  let i := (start + 7) / 8 * 8
  let bmap := patch bmap 0 ((start + 7) / 8) fun _ => 0
  let bmap := (List.range' start (i - start)).foldl bmapBitSet bmap
  if i < s.blockSize * 8 then patch bmap (i / 8) ((s.blockSize * 8 - i) / 8) fun _ => 0xff
  else bmap

variable (crc32c : List UInt8 → ℕ)

/-- `ext4_fs_init_inode_bitmap`. -/
def ext4FsInitInodeBitmap (bg : InodeGroup n) : Option ReadErr × InodeGroup n :=
  match bg.noreadErr with
  | some e => (some e, bg)
  | none =>
      let bmap := emptyInodeBitmap s bg.bitmap
      (none, ext4IallocSetBitmapCsum s crc32c bmap { bg with bitmap := bmap })

/-- The part of `ext4_fs_get_block_group_ref` for a group without a block bitmap. -/
def buildBlockBitmap (bg : InodeGroup n) : Option ReadErr × InodeGroup n :=
  if bg.blockUninit then
    match bg.blockBitmapErr with
    | some e => (some e, bg)
    | none => (none, { bg with blockUninit := false })
  else (none, bg)

/-- The part for an inode table that was not zeroed. -/
def buildInodeTable (bg : InodeGroup n) : Option ReadErr × InodeGroup n :=
  if bg.itableZeroed then (none, bg)
  else
    match bg.tableErr with
    | some e => (some e, bg)
    | none => (none, { bg with itableZeroed := true })

/-- The part for a group without an inode bitmap. -/
def buildInodeBitmap (bg : InodeGroup n) : Option ReadErr × InodeGroup n :=
  if bg.inodeUninit then
    match ext4FsInitInodeBitmap s crc32c bg with
    | (some e, bg) => (some e, bg)
    | (none, bg) => buildInodeTable { bg with inodeUninit := false }
  else (none, bg)

/-- `ext4_fs_get_block_group_ref`. -/
def ext4FsGetBlockGroupRef (bg : InodeGroup n) : Option ReadErr × InodeGroup n :=
  match bg.descErr with
  | some e => (some e, bg)
  | none =>
      match buildBlockBitmap bg with
      | (some e, bg) => (some e, bg)
      | (none, bg) => buildInodeBitmap s crc32c bg

/-! ## Allocation -/

/-- Group `bgid` with the inode of bit `idx` taken. -/
def takeInGroup (bg : InodeGroup n) (bgid idx : ℕ) (isDir : Bool) : InodeGroup n :=
  let inodesInBg := ext4InodesInGroupCnt s bgid
  let bmap := bmapBitSet bg.bitmap idx
  let bg := ext4IallocSetBitmapCsum s crc32c bmap { bg with bitmap := bmap }
  { bg with
    freeInodes := stored s (sub32 bg.freeInodes 1)
    usedDirs := if isDir then stored s (bg.usedDirs + 1) else bg.usedDirs
    itableUnused :=
      if sub32 inodesInBg bg.itableUnused ≤ idx then stored s (sub32 inodesInBg (idx + 1))
      else bg.itableUnused }

/-- Take the inode of bit `idx` of group `bgid`. -/
def takeInode (fs : InodeFs n) (bg : InodeGroup n) (bgid idx : ℕ) (isDir : Bool) : InodeFs n where
  groups := Function.update fs.groups bgid (takeInGroup s crc32c bg bgid idx isDir)
  freeInodes := sub32 fs.freeInodes 1
  lastInodeBgId := bgid

variable (unaligned isDir : Bool)

/-- The body of the loop of `ext4_ialloc_alloc_inode`: an outcome, or on to the next group. -/
def tryInodeGroup (fs : InodeFs n) (bgid : ℕ) : Option (Except Errno ℕ) × InodeFs n :=
  match ext4FsGetBlockGroupRef s crc32c (fs.groups bgid) with
  | (some e, bg) => (some (.error e.errno), fs.putGroup bgid bg)
  | (none, bg) =>
      if bg.freeInodes = 0 then (none, fs.putGroup bgid bg)
      else
        match bg.bitmapErr with
        | some e => (some (.error e.errno), fs.putGroup bgid bg)
        | none =>
            if !ext4IallocVerifyBitmapCsum s crc32c bg.bitmap bg then
              (some (.error Errno.EIO), fs.putGroup bgid bg)
            else
              match bmapBitFindClr unaligned bg.bitmap 0 (ext4InodesInGroupCnt s bgid) with
              | none => (none, fs.putGroup bgid bg)
              | some idx =>
                  (some (.ok (ext4IallocBgidxToInode s idx bgid)),
                    takeInode s crc32c fs bg bgid idx isDir)

/-- The loop over `count` groups from `bgid` on. -/
def tryInodeGroups : ℕ → ℕ → InodeFs n → Option (Except Errno ℕ) × InodeFs n
  | 0, _, fs => (none, fs)
  | count + 1, bgid, fs =>
      match tryInodeGroup s crc32c unaligned isDir fs bgid with
      | (some r, fs) => (some r, fs)
      | (none, fs) => tryInodeGroups count (bgid + 1) fs

/-- `ext4_ialloc_alloc_inode`: the groups from the last one used on, and, if none of these gives an
    inode, those before it. -/
def ext4IallocAllocInode (fs : InodeFs n) : Except Errno ℕ × InodeFs n :=
  let last := fs.lastInodeBgId
  let bgCount := ext4BlockGroupCnt s
  if bgCount < last then (.error Errno.ENOSPC, fs)
  else
    match tryInodeGroups s crc32c unaligned isDir (bgCount - last) last fs with
    | (some r, fs) => (r, fs)
    | (none, fs) =>
        match tryInodeGroups s crc32c unaligned isDir last 0 fs with
        | (some r, fs) => (r, fs)
        | (none, fs) => (.error Errno.ENOSPC, fs)

/-! ## Freeing -/

/-- `ext4_ialloc_get_bgid_of_inode`. -/
def ext4IallocGetBgidOfInode (inode : ℕ) : ℕ := sub32 inode 1 / s.inodesPerGroup

/-- A group with the inode of bit `idx` given back. -/
def giveInGroup (bg : InodeGroup n) (idx : ℕ) : InodeGroup n :=
  let bmap := bmapBitClr bg.bitmap idx
  let bg := ext4IallocSetBitmapCsum s crc32c bmap { bg with bitmap := bmap }
  { bg with
    usedDirs := if isDir then stored s (sub32 bg.usedDirs 1) else bg.usedDirs
    freeInodes := stored s (bg.freeInodes + 1) }

/-- `ext4_ialloc_free_inode`. -/
def ext4IallocFreeInode (fs : InodeFs n) (index : ℕ) : Except Errno Unit × InodeFs n :=
  let bgid := ext4IallocGetBgidOfInode s index
  match ext4FsGetBlockGroupRef s crc32c (fs.groups bgid) with
  | (some e, bg) => (.error e.errno, fs.putGroup bgid bg)
  | (none, bg) =>
      match bg.bitmapErr with
      | some e => (.error e.errno, fs.putGroup bgid bg)
      | none =>
          if !ext4IallocVerifyBitmapCsum s crc32c bg.bitmap bg then
            (.error Errno.EIO, fs.putGroup bgid bg)
          else
            (.ok (), { fs with
              groups := Function.update fs.groups bgid
                (giveInGroup s crc32c isDir bg (ext4IallocInodeToBgidx s index))
              freeInodes := (fs.freeInodes + 1) % 2 ^ 32 })

end Source

end Ext4.OnMedium
