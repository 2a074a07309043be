import OpenExt4.Files.Write
import OpenExt4.Lib.Batch

set_option autoImplicit false

/-! # The calls on the blocks of files

The table of reservations of `ext4_bridge.c`, and the calls that write, truncate, preallocate, trim
and unlink files. -/

namespace Files

open ByteDevice Batching

/-! ## The volume -/

/-- A slot of the table: the inode, 0 for none, and how far it is reserved. -/
structure Slot where
  inode : ℕ
  endLblk : ℕ
  deriving DecidableEq

/-- What a transaction takes back: the inodes, and which blocks are in use. -/
structure Meta where
  files : ℕ → File
  used : ℕ → Bool

/-- A mounted volume: its metadata in a batch, the device as far as it holds file data, and the
    table of reservations with the slot that is evicted next. -/
structure Vol where
  batch : Batch Meta
  dev : ℕ → UInt8
  resv : List Slot
  resvNext : ℕ

def EXT4B_RESERVE_SLOTS : ℕ := 8

def EXT4B_RESERVE_TRIGGER : ℕ := 64

def EXT4B_RESERVE_AHEAD : ℕ := 2048

/-- `ext4_fs_get_inode_ref` -/
def Vol.file (v : Vol) (ino : ℕ) : Disk := ⟨v.batch.cur.files ino, v.batch.cur.used, v.dev⟩

/-- `ext4_fs_put_inode_ref` -/
def Vol.put (v : Vol) (ino : ℕ) (d : Disk) : Vol :=
  { v with
    batch := v.batch.set ⟨Function.update v.batch.cur.files ino d.file, d.used⟩
    dev := d.dev }

/-- `txn_finish` -/
def Vol.finish (v : Vol) (t : Fate Errno) (r : Option Errno) : Option Errno × Vol :=
  let out := v.batch.finish t r
  (out.1, { v with batch := out.2 })

/-! ## The table of reservations -/

/-- How giving back what is past the end of a file fares. -/
structure Trim where
  get : Option Errno
  removal : Removal

variable (bs : BlockSize)

/-- `trim_alloc_to_size` -/
def trimAllocToSize (v : Vol) (o : Trim) (ino : ℕ) : Option Errno × Vol :=
  match o.get with
  | some e => (some e, v)
  | none =>
      let d := v.file ino
      if d.file.extents = false then (none, v)
      else if d.file.links = 0 ∧ d.file.delTime ≠ 0 then (none, v)
      else
        let out := removeSpace d o.removal (u32 (blocksFor bs d.file.size))
        (out.1, v.put ino out.2)

/-- `resv_forget` -/
def resvForget (v : Vol) (ino : ℕ) : Vol :=
  { v with resv := v.resv.map fun s => if s.inode = ino then ⟨0, s.endLblk⟩ else s }

/-- `resv_end` -/
def resvEnd (v : Vol) (ino : ℕ) : ℕ :=
  match v.resv.find? (·.inode = ino) with
  | some s => s.endLblk
  | none => 0

/-- The table with another first slot of those that `p` holds of. -/
def setFirst (p : Slot → Bool) (t : Slot) : List Slot → List Slot
  | [] => []
  | s :: rest => if p s = true then t :: rest else s :: setFirst p t rest

/-- `resv_set`: the slot of the inode, or a free one, or the one whose turn it is to be evicted. -/
def resvSet (v : Vol) (evict : Trim) (ino endLblk : ℕ) : Option Errno × Vol :=
  if v.resv.any (·.inode == ino) = true then
    (none, { v with resv := setFirst (·.inode == ino) ⟨ino, endLblk⟩ v.resv })
  else if v.resv.any (·.inode == 0) = true then
    (none, { v with resv := setFirst (·.inode == 0) ⟨ino, endLblk⟩ v.resv })
  else
    let slot := v.resvNext % EXT4B_RESERVE_SLOTS
    let victim := (v.resv[slot]?.map (·.inode)).getD 0
    trimAllocToSize bs { v with resv := v.resv.set slot ⟨ino, endLblk⟩, resvNext := slot + 1 }
      evict victim

/-- The trims of `resv_release_all`, slot by slot, with the first error. -/
def releaseSlots (trims : ℕ → Trim) : ℕ → List Slot → Vol → Option Errno × Vol
  | _, [], v => (none, v)
  | i, s :: rest, v =>
      if s.inode = 0 then releaseSlots trims (i + 1) rest v
      else
        let out := trimAllocToSize bs v (trims i) s.inode
        let last := releaseSlots trims (i + 1) rest out.2
        (if out.1 = none then last.1 else out.1, last.2)

/-- `resv_release_all`. Each slot is cleared before its trim, which does not look at the table. -/
def resvReleaseAll (v : Vol) (trims : ℕ → Trim) : Option Errno × Vol :=
  releaseSlots bs trims 0 v.resv { v with resv := v.resv.map fun s => ⟨0, s.endLblk⟩ }

/-! ## Writing -/

/-- How reserving ahead of a write fares: the look at the block behind the end, the free blocks of
    the superblock, the trims of the whole table, allocating, and evicting. -/
structure Reserve where
  probe : Option ℕ
  spare : ℕ
  release : ℕ → Trim
  blocks : List Blocks
  evict : Trim

/-- Where a reservation goes on: behind what the inode holds, and behind its end. -/
def resvReach (v : Vol) (ino haveBlocks : ℕ) : ℕ :=
  if resvEnd v ino = 0 then haveBlocks else max (resvEnd v ino) haveBlocks

/-- The part of `ext4b_write` that allocates ahead. -/
def reserveAhead (v : Vol) (o : Reserve) (ino offset count : ℕ) : Option Errno × Vol :=
  let d := v.file ino
  let fsize := d.file.size
  let haveBlocks := u32 (blocksFor bs fsize)
  if EXT4B_RESERVE_TRIGGER * bs.val ≤ count ∧ offset ≤ fsize ∧ fsize < offset + count ∧
      d.file.extents = true then
    -- what is past the end already belongs to an explicit preallocation
    if resvEnd v ino = 0 ∧ (mapRange d.file o.probe haveBlocks 1).isSome = true then (none, v)
    else
      let reach := resvReach v ino haveBlocks
      let through := u32 (blocksFor bs (offset + count))
      if o.spare ≤ EXT4B_RESERVE_AHEAD * EXT4B_RESERVE_SLOTS * 4 then
        resvReleaseAll bs v o.release
      else if reach < through then
        let out := preallocate reach (through - reach + EXT4B_RESERVE_AHEAD) o.blocks 0 0 d
        let v := v.put ino out.2.2
        if 0 < out.2.1 then resvSet bs v o.evict ino (u32 (reach + out.2.1)) else (none, v)
      else (none, v)
  else (none, v)

/-- How a call of `ext4b_write` fares, part by part. -/
structure WriteEnv where
  begin : Option Errno
  get : Option Errno
  reserve : Reserve
  answers : Answers
  fate : Fate Errno

/-- Why `ext4b_write` refuses. -/
def writeRefusal (f : File) (offset count : ℕ) : Option Errno :=
  let maxFileSize := bs.val * 2 ^ 32
  if f.directory = true then some Errno.EISDIR
  else if maxFileSize < count ∨ maxFileSize - count < offset then some Errno.EFBIG
  else if f.immutable = true ∨ (f.appendOnly = true ∧ offset + count < f.size) then
    some Errno.EPERM
  else none

/-- `ext4b_write`: the result, `*out_written` and the volume. -/
def write (v : Vol) (env : WriteEnv) (buf : ℕ → UInt8) (ino offset count : ℕ) :
    Option Errno × ℕ × Vol :=
  if count = 0 then (none, 0, v)
  else
    match env.begin with
    | some e => (some e, 0, v)
    | none =>
    match env.get with
    | some e => let out := v.finish env.fate (some e); (out.1, 0, out.2)
    | none =>
    match writeRefusal bs (v.file ino).file offset count with
    | some e => let out := v.finish env.fate (some e); (out.1, 0, out.2)
    | none =>
    match reserveAhead bs v env.reserve ino offset count with
    | (some e, v) => let out := v.finish env.fate (some e); (out.1, 0, out.2)
    | (none, v) =>
        let body := writeBody bs buf env.answers (v.file ino) offset count
        let out := (v.put ino body.2.2).finish env.fate body.1
        (out.1, body.2.1, out.2)

/-! ## Truncating -/

/-- `ext4_fs_truncate_inode` of a regular file. Without extents its blocks are released one by one,
    up to the one where that fails. -/
def truncateInode (d : Disk) (o : Removal) (newSize : ℕ) : Option Errno × Disk :=
  let f := d.file
  if f.appendOnly = true ∨ f.immutable = true then (some Errno.EINVAL, d)
  else if f.size = newSize ∧ (newSize ≠ 0 ∨ f.blocks = []) then (none, d)
  else if f.size < newSize then (some Errno.EINVAL, d)
  else
    let newBlocks := u32 (blocksFor bs newSize)
    let oldBlocks := u32 (blocksFor bs f.size)
    let out :=
      if f.extents = true then
        if oldBlocks ≠ newBlocks ∨ (newSize = 0 ∧ f.blocks ≠ []) then removeSpace d o newBlocks
        else (none, d)
      else
        match o.stops with
        | some (e, n) =>
            if newBlocks ≤ n ∧ n < oldBlocks then
              (some e, d.remove fun l => newBlocks ≤ l && l < n)
            else (none, d.remove fun l => newBlocks ≤ l && l < oldBlocks)
        | none => (none, d.remove fun l => newBlocks ≤ l && l < oldBlocks)
    match out with
    | (some e, d) => (some e, d)
    | (none, d) => (none, d.setSize newSize)

/-- A turn of `zero_exposed_range`: the lookup and the command. -/
structure ZeroTurn where
  lookup : Option Errno
  data : Landing Errno

/-- `zero_exposed_range`, a block at a time. -/
def zeroExposedRange : List ZeroTurn → ℕ → ℕ → Disk → Option Errno × Disk
  | [], pos, stop, d => (if stop ≤ pos then none else some Errno.EIO, d)
  | t :: ts, pos, stop, d =>
      if stop ≤ pos then (none, d)
      else
        match t.lookup with
        | some e => (some e, d)
        | none =>
        let inOff := pos % bs.val
        let chunk := min (bs.val - inOff) (stop - pos)
        match d.file.map (u32 (pos / bs.val)) with
        | some m =>
            if m.fblk = 0 ∨ m.unwritten = true then (none, d)
            else
              match ByteDevice.writeAt d.dev t.data (m.fblk * bs.val + inOff) chunk fun _ => 0 with
              | (some e, dev) => (some e, { d with dev := dev })
              | (none, dev) => zeroExposedRange ts (pos + chunk) stop { d with dev := dev }
        | none => (none, d)

/-- How a call of `ext4b_truncate` fares. -/
structure TruncateEnv where
  begin : Option Errno
  get : Option Errno
  noMemory : Bool
  zeros : List ZeroTurn
  removal : Removal
  now : ℕ
  fate : Fate Errno

/-- Why `ext4b_truncate` refuses, and `ext4b_preallocate` does. -/
def changeRefusal (f : File) : Option Errno :=
  if f.directory = true then some Errno.EISDIR
  else if f.immutable = true ∨ f.appendOnly = true then some Errno.EPERM
  else none

/-- `ext4b_truncate` -/
def truncate (v : Vol) (env : TruncateEnv) (ino newSize : ℕ) : Option Errno × Vol :=
  let v := resvForget v ino
  match env.begin with
  | some e => (some e, v)
  | none =>
  match env.get with
  | some e => v.finish env.fate (some e)
  | none =>
  let d := v.file ino
  match changeRefusal d.file with
  | some e => v.finish env.fate (some e)
  | none =>
      let out :=
        if newSize < d.file.size then truncateInode bs d env.removal newSize
        else if d.file.size < newSize then
          if env.noMemory = true then (some Errno.ENOMEM, d)
          else
            match zeroExposedRange bs env.zeros d.file.size newSize d with
            | (some e, d) => (some e, d)
            | (none, d) => (none, d.setSize newSize)
        else (none, d)
      let d' :=
        if out.1 = none ∧ newSize ≠ d.file.size then out.2.touch env.now else out.2
      (v.put ino d').finish env.fate out.1

/-! ## Preallocating and trimming -/

/-- How a call of `ext4b_preallocate` fares. -/
structure PreallocateEnv where
  begin : Option Errno
  get : Option Errno
  blocks : List Blocks
  fate : Fate Errno

/-- `ext4b_preallocate`: the result, `*out_allocated` and the volume. -/
def preallocateCall (v : Vol) (env : PreallocateEnv) (ino offset length : ℕ) :
    Option Errno × ℕ × Vol :=
  if length = 0 then (none, 0, v)
  else
    let v := resvForget v ino
    match env.begin with
    | some e => (some e, 0, v)
    | none =>
    match env.get with
    | some e => let out := v.finish env.fate (some e); (out.1, 0, out.2)
    | none =>
    let d := v.file ino
    match changeRefusal d.file with
    | some e => let out := v.finish env.fate (some e); (out.1, 0, out.2)
    | none =>
    if d.file.extents = false then
      let out := v.finish env.fate (some Errno.ENOTSUP); (out.1, 0, out.2)
    else
      let first := offset / bs.val
      let last := (offset + length - 1) / bs.val
      if 2 ^ 32 - 1 ≤ last then
        let out := v.finish env.fate (some Errno.EFBIG); (out.1, 0, out.2)
      else
        let out := preallocate first (last - first + 1) env.blocks 0 0 d
        let fin := (v.put ino out.2.2).finish env.fate out.1
        (fin.1, out.2.1 * bs.val, fin.2)

/-- How a call that only trims fares. -/
structure TrimEnv where
  begin : Option Errno
  trim : Trim
  fate : Fate Errno

/-- `ext4b_trim_preallocation` -/
def trimPreallocation (v : Vol) (env : TrimEnv) (ino : ℕ) : Option Errno × Vol :=
  match env.begin with
  | some e => (some e, v)
  | none =>
      let out := trimAllocToSize bs (resvForget v ino) env.trim ino
      out.2.finish env.fate out.1

/-- `resv_drain` -/
def resvDrain (v : Vol) (begin : Option Errno) (trims : ℕ → Trim) (t : Fate Errno) :
    Option Errno × Vol :=
  match begin with
  | some e => (some e, v)
  | none =>
      let out := resvReleaseAll bs v trims
      out.2.finish t out.1

/-! ## Unlinking -/

/-- How a call of `ext4b_unlink` fares: what refuses it before the entry is removed, the removal of
    the blocks, and what fails behind that. -/
structure UnlinkEnv where
  refused : Option Errno
  removal : Removal
  free : Option Errno
  now : ℕ
  fate : Fate Errno

/-- `ext4b_unlink` of a name of the inode, as far as the inode goes. With its last name it is
    truncated and freed. -/
def unlink (v : Vol) (env : UnlinkEnv) (ino : ℕ) : Option Errno × Vol :=
  match env.refused with
  | some e => v.finish env.fate (some e)
  | none =>
      let d := v.file ino
      let d := { d with file := { d.file with links := d.file.links - 1, ctime := env.now } }
      if d.file.links = 0 then
        let v := resvForget v ino
        let out := truncateInode bs { d with file := { d.file with delTime := env.now } }
          env.removal 0
        let r := if out.1 = none then env.free else out.1
        (v.put ino out.2).finish env.fate r
      else (v.put ino d).finish env.fate none

end Files
