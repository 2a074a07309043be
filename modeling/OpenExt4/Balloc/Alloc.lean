import Mathlib.Logic.Function.Basic
import OpenExt4.Balloc.Geometry

set_option autoImplicit false

/-! # The block allocator

`ext4_balloc.c` on the state it works on: for each group slot of the descriptor table the bitmap
and the free count, the free count of the superblock, and the block count of the inode that gains
or loses the blocks. A block read that fails is part of the state, so that each function keeps the
error paths it has. The revoke records and the buffer cache are not touched by the accounting and
are left out. -/

namespace Ext4

open Bytes

/-! ## The state -/

/-- The errors a block read comes back with. -/
inductive ReadErr where
  | EIO
  | ENXIO
  | ENOMEM
  deriving DecidableEq, Repr

def ReadErr.errno : ReadErr → Errno
  | ReadErr.EIO => Errno.EIO
  | ReadErr.ENXIO => Errno.ENXIO
  | ReadErr.ENOMEM => Errno.ENOMEM

/-- A slot of the group descriptor table as `ext4_fs_get_block_group_ref` leaves it: the bitmap of
    its blocks (initialised, if the group was flagged as not being so) and the free count. A bitmap
    whose checksum does not verify is one that cannot be read, with `EIO`. -/
structure Group (n : ℕ) where
  bitmap : Buf n
  freeBlocks : ℕ
  descErr : Option ReadErr
  bitmapErr : Option ReadErr

/-- What the allocator works on. -/
structure Fs (sb : Sb) where
  groups : ℕ → Group sb.blockSize
  freeBlocks : ℕ
  inode : InodeBlocks

variable {sb : Sb}

/-- The values `ext4_bg_set_free_blocks_count` has room for: without the upper half of a long
    descriptor, 16 bits. -/
def freeCountRoom (sb : Sb) : ℕ :=
  if sb.descSize > EXT4_MIN_BLOCK_GROUP_DESCRIPTOR_SIZE then 2 ^ 32 else 2 ^ 16

/-- The units of an inode's block count in a file system block. -/
def inodeUnits (sb : Sb) : ℕ := sb.blockSize / EXT4_INODE_BLOCK_SIZE

/-- A new bitmap and a new free count for group `bgid`. -/
def Fs.setGroup (fs : Fs sb) (bgid : ℕ) (bitmap : Buf sb.blockSize) (cnt : ℕ) :
    ℕ → Group sb.blockSize :=
  Function.update fs.groups bgid
    { fs.groups bgid with bitmap := bitmap, freeBlocks := cnt % 2 ^ 32 % freeCountRoom sb }

/-- Set bit `index` of group `bgid` and take the block off the three counts. -/
def takeBlock (fs : Fs sb) (bgid index : ℕ) : Fs sb where
  groups := fs.setGroup bgid (bmapBitSet (fs.groups bgid).bitmap index)
    ((fs.groups bgid).freeBlocks + (2 ^ 32 - 1))
  freeBlocks := (fs.freeBlocks + (2 ^ 64 - 1)) % 2 ^ 64
  inode := ext4InodeSetBlocksCount sb fs.inode
    ((ext4InodeGetBlocksCount sb fs.inode + inodeUnits sb) % 2 ^ 64)

/-- Store a bitmap of group `bgid` with `cnt` bits fewer and add them to the three counts. -/
def giveBlocks (fs : Fs sb) (bgid : ℕ) (bitmap : Buf sb.blockSize) (cnt : ℕ) : Fs sb where
  groups := fs.setGroup bgid bitmap ((fs.groups bgid).freeBlocks + cnt)
  freeBlocks := (fs.freeBlocks + cnt) % 2 ^ 64
  inode := ext4InodeSetBlocksCount sb fs.inode
    ((ext4InodeGetBlocksCount sb fs.inode + (2 ^ 64 - cnt * inodeUnits sb)) % 2 ^ 64)

/-- The error of reading the descriptor and then the bitmap of a slot. -/
def Group.readErr {n : ℕ} (g : Group n) : Option ReadErr :=
  match g.descErr with
  | some e => some e
  | none => g.bitmapErr

/-! ## Allocation -/

/-- Look into a group with `find`, if its descriptor counts free blocks. -/
def lookInGroup (fs : Fs sb) (bgid : ℕ) (find : Buf sb.blockSize → Option ℕ) :
    Except Errno (Option ℕ) :=
  match (fs.groups bgid).descErr with
  | some e => .error e.errno
  | none =>
      if (fs.groups bgid).freeBlocks = 0 then .ok none
      else
        match (fs.groups bgid).bitmapErr with
        | some e => .error e.errno
        | none => .ok (find (fs.groups bgid).bitmap)

/-- The bit of a group the search starts from. -/
def firstInBgIndex (sb : Sb) (bgid : ℕ) : ℕ :=
  ext4FsAddrToIdxBg sb (ext4BallocGetBlockOfBgid sb bgid)

/-- The search of the goal's group: the goal's bit, the bits up to the next multiple of 64, and the
    rest of the group from the goal on. -/
def findNearGoal (unaligned : Bool) (sb : Sb) (bgid idx : ℕ) (bmap : Buf sb.blockSize) : Option ℕ :=
  if !bit bmap idx then some idx
  else
    let blkInBg := ext4BlocksInGroupCnt sb bgid
    let endIdx := min ((idx + 63) / 64 * 64) blkInBg
    match scanBits bmap (idx + 1) (endIdx - (idx + 1)) with
    | some i => some i
    | none => bmapBitFindClr unaligned bmap idx blkInBg

/-- The search of any other group. -/
def findInGroup (unaligned : Bool) (sb : Sb) (bgid : ℕ) (bmap : Buf sb.blockSize) : Option ℕ :=
  bmapBitFindClr unaligned bmap (firstInBgIndex sb bgid) (ext4BlocksInGroupCnt sb bgid)

/-- The loop over the other groups, `count` of them from `bgid` on. -/
def tryGroups (unaligned : Bool) (fs : Fs sb) : ℕ → ℕ → Except Errno ℕ × Fs sb
  | 0, _ => (.error Errno.ENOSPC, fs)
  | count + 1, bgid =>
      match lookInGroup fs bgid (findInGroup unaligned sb bgid) with
      | .error e => (.error e, fs)
      | .ok (some i) => (.ok (ext4FsBgIdxToAddr sb i bgid), takeBlock fs bgid i)
      | .ok none => tryGroups unaligned fs count ((bgid + 1) % ext4BlockGroupCnt sb)

/-- A goal outside the volume is taken for the first data block. -/
def clampGoal (sb : Sb) (goal : ℕ) : ℕ := if sb.HasBlock goal then goal else sb.firstDataBlock

/-- The bit the search of the goal's group starts from. -/
def goalIndex (sb : Sb) (goal : ℕ) : ℕ :=
  max (ext4FsAddrToIdxBg sb goal) (firstInBgIndex sb (ext4BallocGetBgidOfBlock sb goal))

/-- `ext4_balloc_alloc_block`. -/
def ext4BallocAllocBlock (unaligned : Bool) (fs : Fs sb) (goal : ℕ) : Except Errno ℕ × Fs sb :=
  let goal := clampGoal sb goal
  let bgId := ext4BallocGetBgidOfBlock sb goal
  match lookInGroup fs bgId (findNearGoal unaligned sb bgId (goalIndex sb goal)) with
  | .error e => (.error e, fs)
  | .ok (some i) => (.ok (ext4FsBgIdxToAddr sb i bgId), takeBlock fs bgId i)
  | .ok none =>
      tryGroups unaligned fs (ext4BlockGroupCnt sb) ((bgId + 1) % ext4BlockGroupCnt sb)

/-- `ext4_balloc_try_alloc_block`: was the block free, and so taken? -/
def ext4BallocTryAllocBlock (fs : Fs sb) (baddr : ℕ) : Except Errno Bool × Fs sb :=
  if ¬ sb.HasBlock baddr then (.ok false, fs)
  else
    let bgid := ext4BallocGetBgidOfBlock sb baddr
    let index := ext4FsAddrToIdxBg sb baddr
    match (fs.groups bgid).readErr with
    | some e => (.error e.errno, fs)
    | none =>
        if !bit (fs.groups bgid).bitmap index then (.ok true, takeBlock fs bgid index)
        else (.ok false, fs)

/-! ## Freeing -/

/-- `ext4_balloc_free_block`, which does not ask whether the volume has the block. -/
def ext4BallocFreeBlock (fs : Fs sb) (baddr : ℕ) : Except Errno Unit × Fs sb :=
  let bgid := ext4BallocGetBgidOfBlock sb baddr
  match (fs.groups bgid).readErr with
  | some e => (.error e.errno, fs)
  | none =>
      (.ok (), giveBlocks fs bgid
        (bmapBitClr (fs.groups bgid).bitmap (ext4FsAddrToIdxBg sb baddr)) 1)

/-- How much a turn of `ext4_balloc_free_blocks` frees: what is left, up to the end of the bitmap
    block. -/
def turnCnt (sb : Sb) (first count : ℕ) : ℕ :=
  min count (sb.blockSize * 8 - ext4FsAddrToIdxBg sb first)

/-- One turn, in group `bgid`. -/
def freeTurn (unaligned : Bool) (fs : Fs sb) (bgid first count : ℕ) : Fs sb :=
  giveBlocks fs bgid
    (bmapBitsFree unaligned (fs.groups bgid).bitmap (ext4FsAddrToIdxBg sb first)
      (turnCnt sb first count))
    (turnCnt sb first count)

/-- The loop of `ext4_balloc_free_blocks` over the groups from `bgid` on. -/
def freeGroups (unaligned : Bool) : ℕ → ℕ → ℕ → ℕ → Fs sb → Except Errno Unit × Fs sb
  | 0, _, _, _, fs => (.ok (), fs)
  | turns + 1, bgid, first, count, fs =>
      match (fs.groups bgid).readErr with
      | some e => (.error e.errno, fs)
      | none =>
          freeGroups unaligned turns (bgid + 1) (first + turnCnt sb first count)
            (count - turnCnt sb first count) (freeTurn unaligned fs bgid first count)

/-- `ext4_balloc_free_blocks`. -/
def ext4BallocFreeBlocks (unaligned : Bool) (fs : Fs sb) (first count : ℕ) :
    Except Errno Unit × Fs sb :=
  if count = 0 then (.ok (), fs)
  else if first < sb.firstDataBlock ∨ sb.blocksCount ≤ first ∨ sb.blocksCount - first < count then
    (.error Errno.EINVAL, fs)
  else
    let bgFirst := ext4BallocGetBgidOfBlock sb first
    let bgLast := ext4BallocGetBgidOfBlock sb (first + count - 1)
    freeGroups unaligned (bgLast + 1 - bgFirst) bgFirst first count fs

/-! ## Consistent states -/

namespace Fs

/-- The bit of block `b`. -/
def allocated (fs : Fs sb) (b : ℕ) : Bool := bit (fs.groups (sb.groupOf b)).bitmap (sb.indexOf b)

/-- The clear bits of the blocks of group `g`. -/
def clear (fs : Fs sb) (g : ℕ) : ℕ := clearBits (fs.groups g).bitmap (sb.realBlocks g)

/-- The counters tell the clear bits, and the bits behind a group's last block are set. -/
structure Consistent (fs : Fs sb) : Prop where
  readable : ∀ g < sb.groups, (fs.groups g).readErr = none
  padding : ∀ g < sb.groups, ∀ i, sb.realBlocks g ≤ i → i < sb.blockSize * 8 →
    bit (fs.groups g).bitmap i = true
  group : ∀ g < sb.groups, (fs.groups g).freeBlocks = fs.clear g
  group_room : ∀ g < sb.groups, fs.clear g < freeCountRoom sb
  total : fs.freeBlocks = ∑ g ∈ Finset.range sb.groups, fs.clear g
  inode : fs.inode.Wf

end Fs

end Ext4
