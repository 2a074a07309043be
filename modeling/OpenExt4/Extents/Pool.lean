import OpenExt4.Extents.Tree

set_option autoImplicit false

/-! # What the tree operations call

The blocks that are free, the lookups, and the memory. The platform decides what each call comes to
by the number of calls made before it. -/

namespace Extents

/-- How the calls of an operation fare. -/
structure Platform where
  blockSize : ℕ
  blockSize_ge : 1024 ≤ blockSize
  blockSize_le : blockSize ≤ 65536
  /-- `ext4_fs_inode_to_goal_block` -/
  inodeGoal : ℕ
  /-- the free block that the allocator finds near a goal -/
  choose : ℕ → ℕ → Except Errno ℕ
  /-- `ext4_trans_block_get_noread` fails -/
  noread : ℕ → Bool
  /-- the memory for `npath` is not there -/
  nopath : ℕ → Bool
  /-- the zeroing of a run fails -/
  nozero : ℕ → Option Errno
  look : ℕ → Look

/-- The blocks that are free, those given back so far, and the number of calls made. -/
structure Pool where
  free : ℕ → Bool
  freed : List ℕ
  calls : ℕ

/-- One more call has been made. -/
def Pool.tick (w : Pool) : Pool := { w with calls := w.calls + 1 }

/-- `ext4_balloc_free_blocks`, which the extent layer does not ask for its result. -/
def Pool.give (w : Pool) (start count : ℕ) : Pool :=
  { w with
    free := fun b => (start ≤ b ∧ b < start + count) || w.free b
    freed := w.freed ++ List.range' start count }

/-- The blocks given back one by one. -/
def Pool.giveAll (w : Pool) (blocks : List ℕ) : Pool := blocks.foldl (fun w b => w.give b 1) w

/-- `ext4_new_meta_blocks`: one block, which was free. -/
def newMetaBlock (p : Platform) (goal : ℕ) (w : Pool) : Except Errno ℕ × Pool :=
  match p.choose w.calls goal with
  | .error e => (.error e, w.tick)
  | .ok b =>
    if b ≠ 0 ∧ w.free b then
      (.ok b, { w with free := fun x => x ≠ b && w.free x, calls := w.calls + 1 })
    else (.error .ENOSPC, w.tick)

/-- A block for a node, and its buffer; without the buffer the block goes back. -/
def newNodeBlock (p : Platform) (goal : ℕ) (w : Pool) : Except Errno ℕ × Pool :=
  match newMetaBlock p goal w with
  | (.error e, w) => (.error e, w)
  | (.ok b, w) => if p.noread w.calls then (.error Errno.EIO, (w.give b 1).tick) else (.ok b, w.tick)

/-- A lookup, as one call of the operation. -/
def Pool.find (w : Pool) (p : Platform) (t : ExtTree) (block : ℕ) :
    Except Errno (Path t.depth) × Pool :=
  (findExtent (p.look w.calls) p.blockSize t block, w.tick)

end Extents
