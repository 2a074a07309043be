import OpenExt4.Blockmap.Indirect
import OpenExt4.Bridge.Ops
import OpenExt4.Lib.Transitions

set_option autoImplicit false

/-! # Symbolic links

`ext4b_symlink`, `ext4b_readlink` and the end of a link. A short target is in the inode, where other
inodes have their block pointers; a longer one has a block, always behind a block pointer, since the
inode of a link never gets the extents flag. A link may have a block of extended attributes
besides. -/

namespace Blockmap

open Bytes

/-- What a link meets besides: the names (`Ext4b.symlink`), the group of its inode, memory for the
    target's block, and what writing a block past the cache fails with. -/
structure LinkEnv (bs : ℕ) extends Env bs where
  names : Ext4b.Env
  group : ℕ
  noMemory : Bool
  unwritten : ℕ → Option Errno

/-- An error of the names or of the blocks. -/
inductive LinkErrno where
  | names (e : Ext4b.Errno)
  | blocks (e : Errno)

variable {bs : ℕ}

/-! ## Making a link -/

/-- The target at the start of zeros: the `i_block` of a short link, or the block of a longer one.
    -/
def targetBuf (n : ℕ) (target : List UInt8) : Buf n :=
  patch (zeros n) 0 target.length fun i => target.getD i 0

/-- The target is stored, as `create_common` does it. -/
def storeTarget (env : LinkEnv bs) (r : Ref bs) (target : List UInt8) : Result bs (Ref bs) :=
  if target.length < 60 then
    .ok ({ r with inode := { r.inode with blocks := targetBuf 60 target } }.setSize target.length)
  else do
    let (fblk, _, r) ← appendInodeDblk env.toEnv r
    if env.noMemory then .error (Errno.ENOMEM, r)
    else
      match env.unwritten fblk with
      | some e => .error (e, r)
      | none =>
          .ok ({ r with medium := Function.update r.medium fblk (targetBuf bs target) }.setSize
            target.length)

/-- The inode of a link as `ext4_fs_alloc_inode` fills it in; `ext4_fs_inode_blocks_init` leaves it
    so. -/
def freshLink (s : Space bs) : Ref bs where
  toSpace := s
  inode := ⟨.SOFTLINK, false, false, false, 0, 0, 0, zeros 60⟩

/-- A link whose target could not be stored is undone: its name is removed and the inode freed. -/
def undoLink (env : LinkEnv bs) (n : Ext4b.Volume) (r : Ref bs) (parent child : ℕ)
    (name : Ext4b.Name) : Ext4b.Volume × Space bs :=
  let n := match Ext4b.removeEntry n parent name with
    | .ok n => n
    | .error (_, n) => n
  let s := match freeInode env.toEnv r with
    | .ok r => r.toSpace
    | .error (_, r) => r.toSpace
  (n.modify child (Ext4b.freedInode env.names.now), s)

/-- `ext4b_symlink`: the number of the link, the names and the link. -/
def symlink (env : LinkEnv bs) (n : Ext4b.Volume) (s : Space bs) (parent : ℕ) (name : Ext4b.Name)
    (target : List UInt8) :
    Except (LinkErrno × Ext4b.Volume × Space bs) (ℕ × Ext4b.Volume × Ref bs) :=
  match Ext4b.symlink n env.names bs parent name target.length with
  | .error (e, n) => .error (.names e, n, s)
  | .ok (ino, n) =>
      match storeTarget env (freshLink s) target with
      | .error (e, r) => .error (.blocks e, undoLink env n r parent ino name)
      | .ok r => .ok (ino, n, r)

/-! ## Reading it -/

/-- A part of a block is read through the cache, a whole block past it unless its buffer is dirty; a
    hole reads as zeros. -/
def readChunk (env : Env bs) (r : Ref bs) (lblk chunk : ℕ) : Result bs (List UInt8 × Ref bs) := do
  let (fblk, r) ← getInodeDblkIdx env r lblk
  if fblk = 0 then .ok (List.replicate chunk 0, r)
  else if chunk = bs then
    match env.unread fblk with
    | some e => .error (e, r)
    | none =>
        let data := if r.dirty fblk then r.look fblk else r.medium fblk
        .ok ((List.range chunk).map (get8 data), r)
  else do
    let (data, r) ← getBlock env r fblk
    .ok ((List.range chunk).map (get8 data), r)

/-- `ext4b_read` of the last `remaining` bytes, from the start of a block on and a block at a
    time. -/
def readFrom (env : Env bs) : ℕ → Ref bs → ℕ → ℕ → Result bs (List UInt8 × Ref bs)
  | 0, r, _, _ => .ok ([], r)
  | n + 1, r, lblk, remaining =>
      if remaining = 0 then .ok ([], r)
      else do
        let chunk := min bs remaining
        let (head, r) ← readChunk env r lblk chunk
        let (tail, r) ← readFrom env n r (lblk + 1) (remaining - chunk)
        .ok (head ++ tail, r)

/-- `ext4b_readlink` -/
def readlink (env : Env bs) (r : Ref bs) (bufSize : ℕ) : Result bs (List UInt8 × Ref bs) :=
  if bufSize = 0 then .error (Errno.EINVAL, r)
  else if r.inode.type ≠ .SOFTLINK then .error (Errno.EINVAL, r)
  else if bufSize ≤ r.inode.size then .error (Errno.ENAMETOOLONG, r)
  else if r.inode.size < 60 then
    .ok ((List.range r.inode.size).map (get8 r.inode.blocks), r)
  else readFrom env r.inode.size r 0 r.inode.size

/-! ## The block of its attributes -/

/-- `ext4_xattr_try_alloc_block`; its goal is the number of the inode's group. -/
def tryAllocBlock (env : LinkEnv bs) (r : Ref bs) : Result bs (Ref bs) :=
  if r.inode.fileAcl ≠ 0 then .ok r
  else do
    let (b, r) ← allocBlock env.toEnv r env.group
    .ok { r with inode := { r.inode with fileAcl := b } }

/-- `ext4_xattr_try_free_block`; what the allocator answers is not looked at. -/
def tryFreeBlock (env : LinkEnv bs) (r : Ref bs) : Ref bs :=
  let xattrBlock := r.inode.fileAcl
  if xattrBlock = 0 then r
  else
    match freeBlock env.toEnv { r with inode := { r.inode with fileAcl := 0 } } xattrBlock with
    | .ok r => r
    | .error (_, r) => r

/-! ## Runs -/

/-- The link has the block. -/
def Ref.Has (r : Ref bs) (b : ℕ) : Prop := r.freed.count b < r.taken.count b

/-- What happens while there is a link: it gets a block of attributes or loses it, it is read, and
    whatever other calls do with the blocks. -/
inductive LinkEvent (bs : ℕ) where
  | setAttr
  | removeAttr
  | read (bufSize : ℕ)
  | others (s : Space bs)

/-- Nothing fails of it, but for reading. -/
def linkStep (env : LinkEnv bs) (r : Ref bs) : LinkEvent bs → Option (Ref bs)
  | .setAttr =>
      match tryAllocBlock env r with
      | .ok r => some r
      | .error _ => none
  | .removeAttr => some (tryFreeBlock env r)
  | .read bufSize =>
      match readlink env.toEnv r bufSize with
      | .ok (_, r) => some r
      | .error (_, r) => some r
  | .others s => some { r with toSpace := { s with taken := r.taken, freed := r.freed } }

/-- Other calls leave the blocks of the link alone. -/
def Fair (r : Ref bs) : LinkEvent bs → Prop
  | .others s => ∀ b, r.Has b → s.inUse b = true ∧ s.look b = r.look b
  | _ => True

end Blockmap
