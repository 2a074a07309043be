import OpenExt4.Lib.Bytes

set_option autoImplicit false

/-! # Inodes with block pointers

The block map of an inode without extents: the fifteen pointers of `i_block` and the tables of
pointers behind the last three, the lookup of a block, `ext4_fs_append_inode_dblk`,
`ext4_fs_truncate_inode` and `ext4_fs_free_inode`. The tables are read and written through the
block cache; file data goes past it. -/

namespace Blockmap

open Bytes

/-! ## The data -/

inductive Errno where
  | EIO
  | ENOMEM
  | EINVAL
  | ENOSPC
  | ENAMETOOLONG
  deriving DecidableEq, Repr

/-- `EXT4_INODE_MODE_*`. -/
inductive Mode where
  | FIFO
  | CHARDEV
  | DIRECTORY
  | BLOCKDEV
  | FILE
  | SOFTLINK
  | SOCKET
  deriving DecidableEq, Repr

/-- The fields of `struct ext4_inode` that the map and its release look at. `blocksCount` counts
    units of 512 bytes; `blocks` is the array of pointers, or the bytes of a short link. -/
structure Inode where
  type : Mode
  extents : Bool
  append : Bool
  immutable : Bool
  size : ℕ
  blocksCount : ℕ
  fileAcl : ℕ
  blocks : Buf 60

/-- The blocks of a volume with block size `bs`: the medium, the buffers of the cache and which of
    them are dirty, the bits of the block bitmaps, and the blocks that an inode took and gave back,
    in their order. -/
structure Space (bs : ℕ) where
  medium : ℕ → Buf bs
  cached : ℕ → Option (Buf bs)
  dirty : ℕ → Bool
  inUse : ℕ → Bool
  taken : List ℕ
  freed : List ℕ

/-- `struct ext4_inode_ref`. -/
structure Ref (bs : ℕ) extends Space bs where
  inode : Inode

/-- What a call gives; one that fails has left the changes it made so far. -/
abbrev Result (bs : ℕ) (α : Type) : Type := Except (Errno × Ref bs) α

/-- What the parts below answer: whether the volume has extents; what reading a block, getting a
    buffer for one that is not read, and giving it back fail with; the goal in the group of the
    inode, and the block that the allocator finds from a goal; the counts that the inode can hold;
    the removal of extents; and the inode allocator. -/
structure Env (bs : ℕ) where
  extents : Bool
  unread : ℕ → Option Errno
  noBuffer : ℕ → Option Errno
  refused : ℕ → Option Errno
  groupGoal : Except Errno ℕ
  alloc : Space bs → ℕ → Except Errno ℕ
  holds : ℕ → Bool
  removeSpace : Ref bs → ℕ → Result bs (Ref bs)
  freeIno : Option Errno

variable {bs : ℕ}

/-! ## Blocks -/

/-- What is in a block, as the cache shows it. -/
def Space.look (s : Space bs) (b : ℕ) : Buf bs := (s.cached b).getD (s.medium b)

/-- `ext4_trans_block_get`, `ext4_block_get`. -/
def getBlock (env : Env bs) (r : Ref bs) (b : ℕ) : Result bs (Buf bs × Ref bs) :=
  match env.unread b with
  | some e => .error (e, r)
  | none => .ok (r.look b, { r with cached := Function.update r.cached b (some (r.look b)) })

/-- A block that was got, with other data and marked dirty. -/
def Ref.setBlock (r : Ref bs) (b : ℕ) (data : Buf bs) : Ref bs :=
  { r with
    cached := Function.update r.cached b (some data)
    dirty := Function.update r.dirty b true }

/-- `ext4_inode_set_blocks_count`, whose answer is not looked at. -/
def Inode.setBlocksCount (env : Env bs) (inode : Inode) (count : ℕ) : Inode :=
  { inode with blocksCount := if env.holds count then count else inode.blocksCount }

/-- `EXT4_INODE_BLOCK_SIZE` -/
def EXT4_INODE_BLOCK_SIZE : ℕ := 512

/-- A block given back: its bit is cleared, and its buffer goes. The count of the inode is kept in
    64 bits. -/
def Ref.given (env : Env bs) (r : Ref bs) (b : ℕ) : Ref bs :=
  { r with
    inUse := Function.update r.inUse b false
    freed := r.freed ++ [b]
    cached := Function.update r.cached b none
    dirty := Function.update r.dirty b false
    inode := r.inode.setBlocksCount env
      ((r.inode.blocksCount + 2 ^ 64 - bs / EXT4_INODE_BLOCK_SIZE) % 2 ^ 64) }

/-- `ext4_balloc_free_block` -/
def freeBlock (env : Env bs) (r : Ref bs) (b : ℕ) : Result bs (Ref bs) :=
  match env.refused b with
  | some e => .error (e, r)
  | none => .ok (r.given env b)

/-- `ext4_balloc_alloc_block` -/
def allocBlock (env : Env bs) (r : Ref bs) (goal : ℕ) : Result bs (ℕ × Ref bs) :=
  match env.alloc r.toSpace goal with
  | .error e => .error (e, r)
  | .ok b =>
      .ok (b, { r with
        inUse := Function.update r.inUse b true
        taken := r.taken ++ [b]
        inode := r.inode.setBlocksCount env
          ((r.inode.blocksCount + bs / EXT4_INODE_BLOCK_SIZE) % 2 ^ 64) })

/-! ## Pointers -/

/-- `EXT4_INODE_DIRECT_BLOCK_COUNT`, `EXT4_INODE_INDIRECT_BLOCK` -/
def EXT4_INODE_DIRECT_BLOCK_COUNT : ℕ := 12

/-- `ext4_inode_get_direct_block` -/
def Inode.directBlock (inode : Inode) (k : ℕ) : ℕ := getLE 4 inode.blocks (4 * k)

/-- `ext4_inode_set_direct_block` -/
def Inode.setDirectBlock (inode : Inode) (k fblock : ℕ) : Inode :=
  { inode with blocks := putLE 4 inode.blocks (4 * k) fblock }

/-- `ext4_inode_get_indirect_block` -/
def Inode.indirectBlock (inode : Inode) (k : ℕ) : ℕ :=
  inode.directBlock (k + EXT4_INODE_DIRECT_BLOCK_COUNT)

/-- `ext4_inode_set_indirect_block` -/
def Inode.setIndirectBlock (inode : Inode) (k fblock : ℕ) : Inode :=
  inode.setDirectBlock (k + EXT4_INODE_DIRECT_BLOCK_COUNT) fblock

/-- The pointer in slot `i` of a table. -/
def pointer (data : Buf bs) (i : ℕ) : ℕ := getLE 4 data (4 * i)

/-- `inode_blocks_per_level` -/
def blocksPerLevel (bs l : ℕ) : ℕ := (bs / 4) ^ l

/-- `inode_block_limits` -/
def blockLimits (bs : ℕ) : ℕ → ℕ
  | 0 => EXT4_INODE_DIRECT_BLOCK_COUNT
  | l + 1 => blockLimits bs l + blocksPerLevel bs (l + 1)

/-- The level of indirection that a logical block behind the direct ones needs; 0 if there is
    none. -/
def levelOf (bs iblock : ℕ) : ℕ :=
  if iblock < blockLimits bs 1 then 1
  else if iblock < blockLimits bs 2 then 2
  else if iblock < blockLimits bs 3 then 3
  else 0

/-- The inode is mapped by extents. -/
def mappedByExtents (env : Env bs) (inode : Inode) : Bool := env.extents && inode.extents

/-! ## The physical block of a logical one -/

/-- The loop of `ext4_fs_get_inode_dblk_idx` from the table `p` of a level on. -/
def lookupFrom (env : Env bs) : ℕ → Ref bs → ℕ → ℕ → Result bs (ℕ × Ref bs)
  | 0, r, p, _ => .ok (p, r)
  | l + 1, r, p, off =>
      if p = 0 then .ok (0, r)
      else do
        let (data, r) ← getBlock env r p
        lookupFrom env l r (pointer data (off / blocksPerLevel bs l)) (off % blocksPerLevel bs l)

/-- `ext4_fs_get_inode_dblk_idx` of an inode with block pointers; `ext4_fs_init_inode_dblk_idx` is
    the same there. -/
def getInodeDblkIdx (env : Env bs) (r : Ref bs) (iblock : ℕ) : Result bs (ℕ × Ref bs) :=
  if r.inode.size = 0 then .ok (0, r)
  else if iblock < EXT4_INODE_DIRECT_BLOCK_COUNT then .ok (r.inode.directBlock iblock, r)
  else
    match levelOf bs iblock with
    | 0 => .error (Errno.EIO, r)
    | l + 1 =>
        lookupFrom env (l + 1) r (r.inode.indirectBlock l) (iblock - blockLimits bs l)

/-! ## One block more -/

/-- The blocks that `n` bytes take, in 32 bits. -/
def blocksFor (bs n : ℕ) : ℕ := (n + bs - 1) / bs % 2 ^ 32

/-- The last block of the inode, 0 if there is none. -/
def lastBlock (env : Env bs) (r : Ref bs) : Result bs (ℕ × Ref bs) :=
  let iblockCnt := blocksFor bs r.inode.size
  if 0 < iblockCnt then getInodeDblkIdx env r (iblockCnt - 1) else .ok (0, r)

/-- `ext4_fs_indirect_find_goal`: behind the last block, or in the group of the inode. -/
def indirectFindGoal (env : Env bs) (r : Ref bs) : Result bs (ℕ × Ref bs) := do
  let (goal, r) ← lastBlock env r
  if goal ≠ 0 then .ok (goal + 1, r)
  else
    match env.groupGoal with
    | .error e => .error (e, r)
    | .ok goal => .ok (goal, r)

/-- A new block, from the goal. -/
def allocNew (env : Env bs) (r : Ref bs) : Result bs (ℕ × Ref bs) := do
  let (goal, r) ← indirectFindGoal env r
  allocBlock env r goal

/-- The loop of `ext4_fs_set_inode_data_block_index` from the table `p` of a level on. A table that
    misses is made, and only then put into the one above it. -/
def setFrom (env : Env bs) (fblock : ℕ) : ℕ → Ref bs → ℕ → ℕ → Result bs (Ref bs)
  | 0, r, _, _ => .ok r
  | l + 1, r, p, off => do
      let (data, r) ← getBlock env r p
      let slot := off / blocksPerLevel bs l
      if l = 0 then .ok (r.setBlock p (putLE 4 data (4 * slot) (fblock % 2 ^ 32)))
      else if pointer data slot ≠ 0 then
        setFrom env fblock l r (pointer data slot) (off % blocksPerLevel bs l)
      else do
        let (newBlk, r) ← allocNew env r
        match env.noBuffer newBlk with
        | some e => .error (e, r)
        | none =>
            let r := r.setBlock newBlk (zeros bs)
            let r := r.setBlock p (putLE 4 data (4 * slot) (newBlk % 2 ^ 32))
            setFrom env fblock l r newBlk (off % blocksPerLevel bs l)

/-- The table behind one of the last three pointers, made where there is none. -/
def topTable (env : Env bs) (r : Ref bs) (l : ℕ) : Result bs (ℕ × Ref bs) :=
  if r.inode.indirectBlock l ≠ 0 then .ok (r.inode.indirectBlock l, r)
  else do
    let (newBlk, r) ← allocNew env r
    let r := { r with inode := r.inode.setIndirectBlock l (newBlk % 2 ^ 32) }
    match env.noBuffer newBlk with
    | some e =>
        match freeBlock env r newBlk with
        | .ok r => .error (e, r)
        | .error (_, r) => .error (e, r)
    | none => .ok (newBlk, r.setBlock newBlk (zeros bs))

/-- `ext4_fs_set_inode_data_block_index` of an inode with block pointers. -/
def setInodeDataBlockIndex (env : Env bs) (r : Ref bs) (iblock fblock : ℕ) : Result bs (Ref bs) :=
  if iblock < EXT4_INODE_DIRECT_BLOCK_COUNT then
    .ok { r with inode := r.inode.setDirectBlock iblock (fblock % 2 ^ 32) }
  else
    match levelOf bs iblock with
    | 0 => .error (Errno.EIO, r)
    | l + 1 => do
        let (p, r) ← topTable env r l
        setFrom env fblock (l + 1) r p (iblock - blockLimits bs l)

/-- `ext4_inode_set_size` -/
def Ref.setSize (r : Ref bs) (size : ℕ) : Ref bs :=
  { r with inode := { r.inode with size := size } }

/-- `ext4_fs_append_inode_dblk` of an inode with block pointers: the block and its number in the
    file. A block that cannot be put into the map is given back. -/
def appendInodeDblk (env : Env bs) (r : Ref bs) : Result bs (ℕ × ℕ × Ref bs) := do
  let aligned := (r.inode.size + bs - 1) / bs * bs
  let newBlockIdx := aligned / bs % 2 ^ 32
  let (physBlock, r) ← allocNew env r
  match setInodeDataBlockIndex env r newBlockIdx physBlock with
  | .error (e, r) =>
      match freeBlock env r physBlock with
      | .ok r => .error (e, r)
      | .error (_, r) => .error (e, r)
  | .ok r => .ok (physBlock, newBlockIdx, r.setSize (aligned + bs))

/-! ## The release of one block -/

/-- The loop of `ext4_fs_release_inode_block` from the table `p` of a level on. The pointer to the
    block goes from the last table. -/
def releaseFrom (env : Env bs) : ℕ → Ref bs → ℕ → ℕ → Result bs (Ref bs)
  | 0, r, _, _ => .ok r
  | l + 1, r, p, off =>
      if p = 0 then .ok r
      else do
        let (data, r) ← getBlock env r p
        let slot := off / blocksPerLevel bs l
        let currentBlock := pointer data slot
        if l = 0 then
          let r := r.setBlock p (putLE 4 data (4 * slot) 0)
          if currentBlock = 0 then .ok r else freeBlock env r currentBlock
        else releaseFrom env l r currentBlock (off % blocksPerLevel bs l)

/-- `ext4_fs_release_inode_block` -/
def releaseInodeBlock (env : Env bs) (r : Ref bs) (iblock : ℕ) : Result bs (Ref bs) :=
  if iblock < EXT4_INODE_DIRECT_BLOCK_COUNT then
    let fblock := r.inode.directBlock iblock
    if fblock = 0 then .ok r
    else freeBlock env { r with inode := r.inode.setDirectBlock iblock 0 } fblock
  else
    match levelOf bs iblock with
    | 0 => .error (Errno.EIO, r)
    | l + 1 => releaseFrom env (l + 1) r (r.inode.indirectBlock l) (iblock - blockLimits bs l)

/-! ## Truncation -/

/-- `ext4_inode_can_truncate` -/
def Inode.canTruncate (inode : Inode) : Bool :=
  !inode.append && !inode.immutable &&
    (inode.type == .FILE || inode.type == .DIRECTORY || inode.type == .SOFTLINK)

/-- `n` blocks from `first` on are released one after the other. -/
def releaseBlocks (env : Env bs) (first : ℕ) : ℕ → Ref bs → Result bs (Ref bs)
  | 0, r => .ok r
  | n + 1, r => do
      let r ← releaseBlocks env first n r
      releaseInodeBlock env r ((first + n) % 2 ^ 32)

/-- `ext4_fs_truncate_inode` -/
def truncateInode (env : Env bs) (r : Ref bs) (newSize : ℕ) : Result bs (Ref bs) :=
  if !r.inode.canTruncate then .error (Errno.EINVAL, r)
  else if r.inode.size = newSize ∧ (newSize ≠ 0 ∨ r.inode.blocksCount = 0) then .ok r
  else if r.inode.size < newSize then .error (Errno.EINVAL, r)
  else if r.inode.type = .SOFTLINK ∧ r.inode.size < 60 ∧ r.inode.blocksCount = 0 then
    -- a short link: the bytes behind the new end go
    .ok ({ r with
      inode := { r.inode with
        blocks := patch r.inode.blocks newSize (60 - newSize) fun _ => 0 } }.setSize newSize)
  else
    let newBlocks := blocksFor bs newSize
    let diff := (blocksFor bs r.inode.size + 2 ^ 32 - newBlocks) % 2 ^ 32
    if mappedByExtents env r.inode then
      if diff ≠ 0 ∨ (newSize = 0 ∧ r.inode.blocksCount ≠ 0) then do
        let r ← env.removeSpace r newBlocks
        .ok (r.setSize newSize)
      else .ok (r.setSize newSize)
    else do
      let r ← releaseBlocks env newBlocks diff r
      .ok (r.setSize newSize)

/-! ## The release of the tables -/

/-- The blocks that a list of pointers names, each released by `f`. -/
def freeEach (f : Ref bs → ℕ → Result bs (Ref bs)) : List ℕ → Ref bs → Result bs (Ref bs)
  | [], r => .ok r
  | p :: ps, r =>
      if p = 0 then freeEach f ps r
      else do
        let r ← f r p
        freeEach f ps r

/-- The pointers of a table. -/
def pointers (data : Buf bs) : List ℕ := (List.range (bs / 4)).map (pointer data)

/-- A block behind which there are tables of `l` levels goes after them; the data blocks, which the
    tables of the last level name, stay. -/
def freeTables (env : Env bs) : ℕ → Ref bs → ℕ → Result bs (Ref bs)
  | 0, r, p => freeBlock env r p
  | l + 1, r, p => do
      let (data, r) ← getBlock env r p
      let r ← freeEach (freeTables env l) (pointers data) r
      freeBlock env r p

/-- The tables behind one of the last pointers, and the pointer. -/
def freeIndirect (env : Env bs) (l : ℕ) (r : Ref bs) : Result bs (Ref bs) :=
  let fblock := r.inode.indirectBlock l
  if fblock = 0 then .ok r
  else do
    let r ← freeTables env l r fblock
    .ok { r with inode := r.inode.setIndirectBlock l 0 }

/-- The block of the extended attributes. -/
def freeAcl (env : Env bs) (r : Ref bs) : Result bs (Ref bs) :=
  let xattrBlock := r.inode.fileAcl
  if xattrBlock = 0 then .ok r
  else do
    let r ← freeBlock env r xattrBlock
    .ok { r with inode := { r.inode with fileAcl := 0 } }

/-- The single, the double and the triple tables; those of an extent tree went with its extents. -/
def freeMap (env : Env bs) (r : Ref bs) : Result bs (Ref bs) :=
  if mappedByExtents env r.inode then .ok r
  else do
    let r ← freeIndirect env 0 r
    let r ← freeIndirect env 1 r
    freeIndirect env 2 r

/-- `ext4_fs_free_inode`: the tables, the block of the attributes and the inode. -/
def freeInode (env : Env bs) (r : Ref bs) : Result bs (Ref bs) := do
  let r ← freeMap env r
  let r ← freeAcl env r
  match env.freeIno with
  | some e => .error (e, r)
  | none => .ok r

/-- The end of an inode without names: `ext4_fs_truncate_inode` to nothing, then
    `ext4_fs_free_inode`. -/
def deleteInode (env : Env bs) (r : Ref bs) : Result bs (Ref bs) := do
  let r ← truncateInode env r 0
  freeInode env r

end Blockmap
