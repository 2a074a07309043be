import OpenExt4.Bridge.Volume

set_option autoImplicit false

/-! # Making, removing and moving names

`link_child`, `unlink_child`, and the calls built on them: `ext4b_create`, `ext4b_symlink`,
`ext4b_hardlink`, `ext4b_unlink_ex` and `ext4b_rename`. -/

namespace Ext4b

/-- What a call meets outside the names: the inode the allocator offers, where an added entry
    lands, the time, and the directories whose first block cannot be read. -/
structure Env where
  ialloc : ℕ
  pos : ℕ
  now : ℕ
  unreadable : ℕ → Bool

/-! ## Linking and unlinking -/

/-- The `..` that a linear search finds is made to name `parent`. -/
def setDotdot (parent : ℕ) (d : Inode) : Inode :=
  if d.dotdot ≠ none then { d with dotdot := some parent }
  else
    { d with
      entries :=
        d.entries.modify (d.entries.findIdx fun e => e.name == dotdotName)
          fun e => { e with inode := parent } }

/-- The first block of a new directory: its `.` and `..`, in an index where the volume has them. -/
def initDir (v : Volume) (parent child : ℕ) (d : Inode) : Inode :=
  { d with
    index := d.index || v.dirIndex
    dot := some child
    dotdot := some parent
    linksCnt := 2 }

/-- `link_child`. -/
def linkChild (v : Volume) (pos parent child : ℕ) (name : Name) (rename : Bool) :
    Result Volume :=
  if EXT4_DIRECTORY_FILENAME_LEN < name.length then .error (Errno.ENAMETOOLONG, v)
  else
    let v := v.modify parent (addEntry pos name child)
    if (v.inodes child).type = .dir then
      if !rename then
        let v := v.modify child (initDir v parent child)
        .ok (v.modify parent (linksCountInc v))
      else if !(v.inodes child).index then
        if findEntry v (v.inodes child) dotdotName = none then .error (Errno.EIO, v)
        else
          let v := v.modify child (setDotdot parent)
          .ok (v.modify parent (linksCountInc v))
      else
        -- `ext4_dir_dx_reset_parent_inode`: the first block of an index has the place of `..`
        let v := v.modify child fun d => { d with dotdot := some parent }
        .ok (v.modify parent (linksCountInc v))
    else if !rename then .ok (v.modify child (linksCountInc v))
    else .ok v

/-- `unlink_child`. -/
def unlinkChild (v : Volume) (parent child : ℕ) (name : Name) : Result Volume :=
  let isDir := (v.inodes child).type = .dir
  if isDir ∧ dirHasChildren (v.inodes child) then .error (Errno.ENOTEMPTY, v)
  else do
    let v ← removeEntry v parent name
    if isDir then
      let v := v.modify parent linksCountDec
      return v.modify child fun d => { d with linksCnt := 0 }
    else
      return v.modify child linksCountDec

/-- `unlink_forbidden`. -/
def unlinkForbidden (dir victim : Inode) : Bool :=
  dir.immutable || dir.appendOnly || victim.immutable || victim.appendOnly

/-- `ext4_inode_can_truncate`. -/
def canTruncate (d : Inode) : Bool :=
  !d.appendOnly && !d.immutable && (d.type == .file || d.type == .dir || d.type == .symlink)

/-- The inode truncated and its bit cleared; the other fields stay as they are. -/
def freedInode (now : ℕ) (d : Inode) : Inode :=
  { d with inUse := false, delTime := now, dot := none, dotdot := none, entries := [] }

/-- The end of an inode without names: its deletion time, `ext4_fs_truncate_inode` and
    `ext4_fs_free_inode`. -/
def freeInode (v : Volume) (now ino : ℕ) : Result Volume :=
  if canTruncate (v.inodes ino) then .ok (v.modify ino (freedInode now))
  else .error (Errno.EINVAL, v.modify ino fun d => { d with delTime := now })

/-! ## The calls -/

/-- The inode as `ext4_fs_alloc_inode` fills it in. -/
def freshInode (type : ItemType) : Inode where
  inUse := true
  type := type
  index := false
  immutable := false
  appendOnly := false
  linksCnt := 0
  delTime := 0
  dot := none
  dotdot := none
  entries := []

/-- `ext4_fs_alloc_inode`: an inode of the table whose bit is clear. -/
def allocInode (v : Volume) (ino : ℕ) (type : ItemType) : Result Volume :=
  if (v.inodes ino).inUse ∨ ino = 0 ∨ v.inodesCount < ino then .error (Errno.ENOSPC, v)
  else .ok (v.modify ino fun _ => freshInode type)

/-- `create_common`: the new inode and the volume. -/
def createCommon (v : Volume) (env : Env) (parent : ℕ) (name : Name) (type : ItemType) :
    Result (ℕ × Volume) :=
  if name.length = 0 ∨ EXT4_DIRECTORY_FILENAME_LEN < name.length then .error (Errno.ENAMETOOLONG, v)
  else if (v.inodes parent).immutable then .error (Errno.EPERM, v)
  else if (v.inodes parent).type ≠ .dir then .error (Errno.ENOTDIR, v)
  else if findEntry v (v.inodes parent) name ≠ none then .error (Errno.EEXIST, v)
  else do
    let v ← allocInode v env.ialloc type
    let v ← linkChild v env.pos parent env.ialloc name false
    return (env.ialloc, v)

/-- `ext4b_create`. -/
def create (v : Volume) (env : Env) (parent : ℕ) (name : Name) (type : ItemType) :
    Result (ℕ × Volume) :=
  if type = .symlink then .error (Errno.EINVAL, v)
  else createCommon v env parent name type

/-- `ext4b_symlink`, with the length of its target and the block size. -/
def symlink (v : Volume) (env : Env) (blockSize parent : ℕ) (name : Name) (targetLen : ℕ) :
    Result (ℕ × Volume) :=
  if targetLen = 0 then .error (Errno.EINVAL, v)
  else if targetLen ≥ blockSize ∨ targetLen > 4095 then .error (Errno.ENAMETOOLONG, v)
  else createCommon v env parent name .symlink

/-- `ext4b_hardlink`. -/
def hardlink (v : Volume) (env : Env) (parent : ℕ) (name : Name) (target : ℕ) :
    Result Volume :=
  if name.length = 0 ∨ EXT4_DIRECTORY_FILENAME_LEN < name.length then .error (Errno.ENAMETOOLONG, v)
  else if (v.inodes parent).immutable ∨ (v.inodes target).immutable ∨
      (v.inodes target).appendOnly then .error (Errno.EPERM, v)
  else if (v.inodes target).type = .dir then .error (Errno.EPERM, v)
  else if findEntry v (v.inodes parent) name ≠ none then .error (Errno.EEXIST, v)
  else linkChild v env.pos parent target name false

/-- `ext4b_unlink_ex`: whether the inode lost its last name and waits for its release, and the
    volume. -/
def unlinkEx (v : Volume) (env : Env) (parent : ℕ) (name : Name) (deferRelease : Bool) :
    Result (Bool × Volume) :=
  if name.length = 0 then .error (Errno.EINVAL, v)
  else if name = dotName ∨ name = dotdotName then .error (Errno.EINVAL, v)
  else
    match findEntry v (v.inodes parent) name with
    | none => .error (Errno.ENOENT, v)
    | some child =>
        if unlinkForbidden (v.inodes parent) (v.inodes child) then .error (Errno.EPERM, v)
        else do
          let v ← unlinkChild v parent child name
          if (v.inodes child).linksCnt = 0 then
            if deferRelease then
              let prevHead := v.lastOrphan
              let v := v.modify child fun d => { d with delTime := prevHead }
              return (true, { v with lastOrphan := child })
            else
              let v ← freeInode v env.now child
              return (false, v)
          else return (false, v)

/-- `ext4b_unlink`. -/
def unlink (v : Volume) (env : Env) (parent : ℕ) (name : Name) : Result Volume :=
  (unlinkEx v env parent name false).map Prod.snd

/-- The walk of `ext4b_rename` from the new parent towards the root. It takes at most as many steps
    as there are inodes unless it goes in a circle. -/
def checkAncestry (v : Volume) (unreadable : ℕ → Bool) (child : ℕ) : ℕ → ℕ → Result Unit
  | 0, _ => .error (Errno.diverges, v)
  | fuel + 1, walk =>
      if walk = rootIno then .ok ()
      else if walk = child then .error (Errno.EINVAL, v)
      else
        let parentOf := dirParentInode v unreadable walk
        if parentOf = 0 ∨ parentOf = walk then .ok ()
        else checkAncestry v unreadable child fuel parentOf

/-- The part of `ext4b_rename` that makes way for the new name. -/
def replaceTarget (v : Volume) (env : Env) (dstParent : ℕ) (dstName : Name) (child : ℕ) :
    Result Volume :=
  match findEntry v (v.inodes dstParent) dstName with
  | none => .ok v
  | some victim =>
      if victim = child then .ok v
      else if (v.inodes child).type ≠ .dir ∧ (v.inodes victim).type = .dir then
        .error (Errno.EISDIR, v)
      else if (v.inodes child).type = .dir ∧ (v.inodes victim).type ≠ .dir then
        .error (Errno.ENOTDIR, v)
      else if unlinkForbidden (v.inodes dstParent) (v.inodes victim) then .error (Errno.EPERM, v)
      else do
        let v ← unlinkChild v dstParent victim dstName
        if (v.inodes victim).linksCnt = 0 then freeInode v env.now victim else return v

/-- The part of `ext4b_rename` that gives the entry its new name and takes the old one away. -/
def moveEntry (v : Volume) (env : Env) (srcParent : ℕ) (srcName : Name) (dstParent : ℕ)
    (dstName : Name) (child : ℕ) : Result Volume := do
  let v ← linkChild v env.pos dstParent child dstName true
  let v ← removeEntry v srcParent srcName
  if (v.inodes child).type = .dir ∧ srcParent ≠ dstParent then
    return v.modify srcParent linksCountDec
  else return v

/-- `ext4b_rename`. -/
def rename (v : Volume) (env : Env) (srcParent : ℕ) (srcName : Name) (dstParent : ℕ)
    (dstName : Name) : Result Volume :=
  if srcName.length = 0 ∨ dstName.length = 0 ∨ EXT4_DIRECTORY_FILENAME_LEN < dstName.length then
    .error (Errno.EINVAL, v)
  else
    match findEntry v (v.inodes srcParent) srcName with
    | none => .error (Errno.ENOENT, v)
    | some child =>
        if unlinkForbidden (v.inodes srcParent) (v.inodes child) ∨
            (v.inodes dstParent).immutable then .error (Errno.EPERM, v)
        else do
          if (v.inodes child).type = .dir ∧ dstParent ≠ srcParent then
            checkAncestry v env.unreadable child (v.inodesCount + 1) dstParent
          let v ← replaceTarget v env dstParent dstName child
          moveEntry v env srcParent srcName dstParent dstName child

end Ext4b
