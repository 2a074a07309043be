import OpenExt4.Bridge.Ops

set_option autoImplicit false

/-! # Transactions and the orphan list

The transactions of the bridge, which collect calls until a batch is full, and the routines of
`ext4_bridge.c` that edit the list of inodes deleted while open: its head is in the superblock, each
inode on it keeps the next one in its deletion time. -/

namespace Ext4b

/-! ## Transactions -/

/-- A mounted volume: whether it has a journal, the inodes as the cache has them and the superblock
    in memory (`cur`), the head of the orphan list in the cached block of the superblock, the volume
    as the committed transactions leave it, and the batch. -/
structure Mount where
  journal : Bool
  cur : Volume
  sbBlock : ℕ
  disk : Volume
  txnOps : ℕ
  txnBatch : ℕ

/-- `txn_commit`: the transaction reaches the journal, the superblock as its block has it. -/
def Mount.commit (m : Mount) : Mount :=
  { m with disk := { m.cur with lastOrphan := m.sbBlock }, txnOps := 0 }

/-- `txn_abort`: the blocks of the transaction are dropped. The superblock in memory is not one of
    them. Without a journal there is nothing to drop. -/
def Mount.abort (m : Mount) : Mount :=
  if m.journal then
    { m with
      cur := { m.disk with lastOrphan := m.cur.lastOrphan }
      sbBlock := m.disk.lastOrphan
      txnOps := 0 }
  else { m with txnOps := 0 }

/-- How a transaction that is to be finished fares: whether `txn_must_commit` finds it too large to
    go on with, and whether its commit, or the flush behind the commit, fails. -/
structure TxnEnv where
  full : Bool
  commit : Option Errno
  flush : Option Errno

/-- `txn_finish`, with the error of the call, if it has one. -/
def txnFinish (m : Mount) (t : TxnEnv) : Option Errno → Option Errno × Mount
  | some e =>
      if m.txnOps = 0 then (some e, m.abort)
      else
        match t.commit with
        | some ce => (some ce, m.abort)
        | none => (some e, m.commit)
  | none =>
      let m := { m with txnOps := m.txnOps + 1 }
      if m.txnOps < m.txnBatch ∧ t.full = false then (none, m)
      else
        match t.commit with
        | some ce => (some ce, m.abort)
        | none => (t.flush, m.commit)

/-! ## The list -/

/-- `orphan_plausible`. -/
def orphanPlausible (v : Volume) (ino : ℕ) : Bool :=
  let first := if v.firstInode < rootIno then 11 else v.firstInode
  first ≤ ino && ino ≤ v.inodesCount

/-- What follows an inode on the list, 0 for what cannot be an inode. -/
def orphanNext (v : Volume) (ino : ℕ) : ℕ :=
  let next := (v.inodes ino).delTime
  if orphanPlausible v next then next else 0

/-- `orphan_set_next`. -/
def orphanSetNext (v : Volume) (ino next : ℕ) : Volume :=
  v.modify ino fun d => { d with delTime := next }

/-- `orphan_publish_head`: in an open transaction of the journal the head goes into the block of the
    superblock, else the superblock is written at once. -/
def Mount.publishHead (m : Mount) (inTxn : Bool) (ino : ℕ) : Mount :=
  { m with
    cur := { m.cur with lastOrphan := ino }
    sbBlock := ino
    disk := if m.journal && inTxn then m.disk else { m.disk with lastOrphan := ino } }

/-- `ORPHAN_WALK_LIMIT`. -/
def ORPHAN_WALK_LIMIT : ℕ := 4096

/-- The walk of `orphan_del` for the inode that leads to `ino`, to make it lead to `after`. -/
def closeOver (v : Volume) (ino after : ℕ) : ℕ → ℕ → Volume
  | 0, _ => v
  | guard + 1, prev =>
      if prev = 0 ∨ orphanPlausible v prev = false then v
      else
        let next := (v.inodes prev).delTime
        if next = ino then orphanSetNext v prev after
        else closeOver v ino after guard next

/-- `orphan_del`. -/
def orphanDel (m : Mount) (t : TxnEnv) (ino : ℕ) : Option Errno × Mount :=
  let head := m.cur.lastOrphan
  if head = 0 ∨ ino = 0 then (none, m)
  else
    let after := orphanNext m.cur ino
    let m := { m with cur := orphanSetNext m.cur ino 0 }
    if head = ino then
      let (r, m) := txnFinish (m.publishHead true after) t none
      if r = none then (r, m) else (r, { m with cur := { m.cur with lastOrphan := head } })
    else txnFinish { m with cur := closeOver m.cur ino after ORPHAN_WALK_LIMIT head } t none

/-- The second transaction of `ext4b_release_inode`, which frees the inode. -/
def releaseFree (m : Mount) (t : TxnEnv) (now ino : ℕ) (isHead : Bool) : Option Errno × Mount :=
  let d := m.cur.inodes ino
  if d.linksCnt ≠ 0 then txnFinish m t (some Errno.EBUSY)
  else if d.inUse = false then txnFinish m t none
  else
    let next := orphanNext m.cur ino
    match freeInode m.cur now ino with
    | .error (e, v) =>
        let (r, m) := txnFinish { m with cur := v } t (some e)
        (r, if isHead then { m with cur := { m.cur with lastOrphan := ino } } else m)
    | .ok v =>
        let m := { m with cur := v }
        let (r, m) := txnFinish (if isHead then m.publishHead true next else m) t none
        if r ≠ none ∧ isHead then (r, { m with cur := { m.cur with lastOrphan := ino } })
        else (r, m)

/-- `ext4b_release_inode`: the mounts behind each of its transactions. -/
def releaseInode (m : Mount) (t₁ t₂ : TxnEnv) (now ino : ℕ) : List Mount :=
  if ino < rootIno then [m]
  else if m.cur.lastOrphan = ino then [(releaseFree m t₂ now ino true).2]
  else
    match orphanDel m t₁ ino with
    | (some _, m) => [m]
    | (none, m) => [m, (releaseFree m t₂ now ino false).2]

/-! ## Calls on names -/

/-- `ext4b_unlink_ex` with its release put off, in its transaction. One that fails behind the edit
    of the list takes the edit of the head back, with no transaction open any more. -/
def unlinkDeferred (m : Mount) (t : TxnEnv) (env : Env) (parent : ℕ) (name : Name) :
    Option Errno × Mount :=
  if name.length = 0 ∨ name = dotName ∨ name = dotdotName then (some Errno.EINVAL, m)
  else
    match unlinkEx m.cur env parent name true with
    | .error (e, v) => txnFinish { m with cur := v } t (some e)
    | .ok (joined, v) =>
        let prevHead := m.cur.lastOrphan
        let m := if joined then m.publishHead true v.lastOrphan else m
        let (r, m) := txnFinish { m with cur := v } t none
        if r ≠ none ∧ joined then (r, m.publishHead false prevHead) else (r, m)

/-- `ext4b_rename` in its transaction. -/
def renameInTxn (m : Mount) (t : TxnEnv) (env : Env) (srcParent : ℕ) (srcName : Name)
    (dstParent : ℕ) (dstName : Name) : Option Errno × Mount :=
  if srcName.length = 0 ∨ dstName.length = 0 ∨ EXT4_DIRECTORY_FILENAME_LEN < dstName.length then
    (some Errno.EINVAL, m)
  else
    match rename m.cur env srcParent srcName dstParent dstName with
    | .error (e, v) => txnFinish { m with cur := v } t (some e)
    | .ok v => txnFinish { m with cur := v } t none

/-! ## Cleanup at mount -/

/-- Where a turn of the cleanup loop may fail: `txn_begin`, reading the inode, reading the bitmap,
    writing the head, truncating or freeing the inode; and how its transaction fares. -/
structure Faults where
  begin : Option Errno
  get : Option Errno
  inUse : Option Errno
  publish : Option Errno
  free : Option Errno
  txn : TxnEnv

/-- What `ext4b_orphan_cleanup` keeps: the mount and the inodes it freed and dropped. -/
structure Cleanup where
  mount : Mount
  freed : ℕ
  dropped : ℕ

/-- The end of a turn: the transaction is finished, and the loop goes on unless that failed. -/
def cleanupFinish (c : Cleanup) (m : Mount) (t : TxnEnv) (r : Option Errno) (freed dropped : ℕ) :
    Option (Option Errno) × Cleanup :=
  match txnFinish m t r with
  | (some e, m) => (some (some e), { c with mount := m })
  | (none, m) => (none, ⟨m, c.freed + freed, c.dropped + dropped⟩)

/-- One turn of the loop of `ext4b_orphan_cleanup`: what it returns, or nothing if the loop goes
    on. -/
def cleanupTurn (c : Cleanup) (f : Faults) (now : ℕ) : Option (Option Errno) × Cleanup :=
  let m := c.mount
  let ino := m.cur.lastOrphan
  if ino = 0 then (some none, c)
  else if orphanPlausible m.cur ino = false then
    match f.publish with
    | some e =>
        (some (some e), { c with mount := { m with cur := { m.cur with lastOrphan := 0 } } })
    | none =>
        -- outside a transaction of its own, but not outside a batch
        (some none, { c with mount := m.publishHead (m.txnOps != 0) 0 })
  else
    match f.begin with
    | some e => (some (some e), c)
    | none =>
    match f.get with
    | some e => cleanupFinish c m f.txn (some e) 0 0
    | none =>
    let next := orphanNext m.cur ino
    match f.inUse with
    | some e => cleanupFinish c m f.txn (some e) 0 0
    | none =>
    match f.publish with
    | some e =>
        cleanupFinish c { m with cur := { m.cur with lastOrphan := next } } f.txn (some e) 0 0
    | none =>
    let m := m.publishHead true next
    let d := m.cur.inodes ino
    if d.inUse = false then cleanupFinish c m f.txn none 0 1
    else if d.linksCnt ≠ 0 then
      cleanupFinish c { m with cur := orphanSetNext m.cur ino 0 } f.txn none 0 1
    else
      match f.free with
      | some e => cleanupFinish c { m with cur := orphanSetNext m.cur ino now } f.txn (some e) 0 0
      | none =>
      match freeInode m.cur now ino with
      | .error (e, v) => cleanupFinish c { m with cur := v } f.txn (some e) 0 0
      | .ok v => cleanupFinish c { m with cur := v } f.txn none 1 0

/-- The loop of `ext4b_orphan_cleanup` from turn `k`. -/
def cleanupLoop (faults : ℕ → Faults) (now : ℕ) : ℕ → ℕ → Cleanup → Option Errno × Cleanup
  | 0, _, c => (none, c)
  | guard + 1, k, c =>
      match cleanupTurn c (faults k) now with
      | (some r, c) => (r, c)
      | (none, c) => cleanupLoop faults now guard (k + 1) c

/-- `ext4b_orphan_cleanup`. -/
def orphanCleanup (m : Mount) (faults : ℕ → Faults) (now : ℕ) : Option Errno × Cleanup :=
  cleanupLoop faults now ORPHAN_WALK_LIMIT 0 ⟨m, 0, 0⟩

end Ext4b
