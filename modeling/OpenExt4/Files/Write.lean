import OpenExt4.Files.Map

set_option autoImplicit false

/-! # The loop of a write

`ext4b_write` from the point where its blocks are reserved: a loop that takes the data a block at a
time, or a whole unwritten range at a time, and holds back runs of contiguous blocks to write them
with one command. -/

namespace Files

open ByteDevice

/-- What the loop keeps: the file and the device, how many blocks it takes the file to have, where
    in the file and in the data it is, the run that waits for its command, and `*out_written`. -/
structure Wr where
  disk : Disk
  haveBlocks : ℕ
  pos : ℕ
  remaining : ℕ
  src : ℕ
  runFirst : ℕ
  runBlocks : ℕ
  runBytes : ℕ
  runSrc : ℕ
  written : ℕ

/-- How the parts below answer in one turn: the two lookups, with how far the extents reach; the
    command of the waiting run and the one of the turn's own data; marking the range written; memory
    for a block; and what the mapping of blocks meets, one answer for each call. -/
structure Turn where
  range : Option ℕ
  again : Option ℕ
  flush : Landing Errno
  data : Landing Errno
  mark : Option Errno
  noMemory : Bool
  init : Blocks
  appends : List Blocks

variable (bs : BlockSize) (buf : ℕ → UInt8)

/-! ## The parts of a turn -/

/-- `bridge_flush_run`. The run is gone whether its command fails or not. -/
def flushRun (l : Landing Errno) (w : Wr) : Option Errno × Wr :=
  if w.runBlocks = 0 then (none, w)
  else
    let out := writeAt w.disk.dev l (w.runFirst * bs.val) (u32 (w.runBlocks * bs.val))
      fun i => buf (w.runSrc + i)
    (out.1, { w with disk := { w.disk with dev := out.2 }, runBlocks := 0 })

/-- The waiting run is written and counted before what does not belong to it. -/
def flushPending (l : Landing Errno) (w : Wr) : Except (Errno × Wr) Wr :=
  match flushRun bs buf l w with
  | (some e, w) => .error (e, w)
  | (none, w) => .ok { w with written := w.written + w.runBytes, runBytes := 0 }

/-- The loop goes on behind `n` bytes. -/
def Wr.advance (w : Wr) (n : ℕ) : Wr :=
  { w with src := w.src + n, pos := w.pos + n, remaining := w.remaining - n }

/-- `n` whole blocks at `lblk` that are still unwritten: written at once, and marked only then. -/
def fastTurn (t : Turn) (w : Wr) (lblk : ℕ) (m : Mapping) (n : ℕ) : Except (Errno × Wr) Wr :=
  match flushPending bs buf t.flush w with
  | .error e => .error e
  | .ok w =>
      let len := u32 (n * bs.val)
      match writeAt w.disk.dev t.data (m.fblk * bs.val) len fun i => buf (w.src + i) with
      | (some e, dev) => .error (e, { w with disk := { w.disk with dev := dev } })
      | (none, dev) =>
      match markWritten w.disk.file t.mark lblk n with
      | (some e, f) => .error (e, { w with disk := { w.disk with file := f, dev := dev } })
      | (none, f) =>
          .ok ({ w with
            disk := { w.disk with file := f, dev := dev }
            written := w.written + len
            haveBlocks :=
              if w.haveBlocks < u32 (lblk + n) then u32 (lblk + n) else w.haveBlocks }.advance len)

/-- The walk out to `lblk`, which is past the end, an append at a time; at `lblk` itself for all that
    is left of the write. -/
def appendTo (lblk : ℕ) : List Blocks → ℕ → Wr → Except (Errno × Wr) (ℕ × Wr)
  | [], fblk, w => if lblk < w.haveBlocks then .ok (fblk, w) else .error (Errno.ENOSPC, w)
  | o :: os, fblk, w =>
      if lblk < w.haveBlocks then .ok (fblk, w)
      else
        let want :=
          if w.haveBlocks = lblk then max 1 (min (blocksFor bs w.remaining) (2 ^ 32 - 1)) else 1
        match appendInodeDblkRange bs w.disk o want with
        | .error (e, d) => .error (e, { w with disk := d })
        | .ok (fblk, got, d) =>
            appendTo lblk os fblk { w with disk := d, haveBlocks := u32 (w.haveBlocks + got) }

/-- What the extent tree has at a block past the end. -/
def pastEnd (t : Turn) (w : Wr) (lblk : ℕ) : Option Mapping :=
  if w.haveBlocks ≤ lblk then (mapRange w.disk.file t.again lblk 1).map Prod.fst else none

/-- The physical block for `lblk`. -/
def locate (t : Turn) (w : Wr) (lblk : ℕ) : Except (Errno × Wr) (ℕ × Wr) :=
  match pastEnd t w lblk with
  | some m => .ok (m.fblk, w)
  | none =>
      if lblk < w.haveBlocks then
        match initInodeDblkIdx bs w.disk t.init lblk with
        | .error (e, d) => .error (e, { w with disk := d })
        | .ok (fblk, d) => .ok (fblk, { w with disk := d })
      else appendTo bs lblk t.appends 0 w

/-- A whole block joins the waiting run, or starts a new one. -/
def queueBlock (t : Turn) (w : Wr) (fblk : ℕ) : Except (Errno × Wr) Wr :=
  if w.runBlocks ≠ 0 ∧ fblk = w.runFirst + w.runBlocks then
    .ok { w with runBlocks := w.runBlocks + 1, runBytes := w.runBytes + bs.val }
  else
    match flushPending bs buf t.flush w with
    | .error e => .error e
    | .ok w => .ok { w with runBytes := bs.val, runFirst := fblk, runBlocks := 1, runSrc := w.src }

/-- A part of a block is written on its own. In an unwritten block there is nothing to merge with:
    the whole block is written, zeros around the data, and then marked. -/
def writePartial (t : Turn) (w : Wr) (lblk fblk inOff chunk : ℕ) (tailUnwritten : Bool) :
    Except (Errno × Wr) Wr :=
  match flushPending bs buf t.flush w with
  | .error e => .error e
  | .ok w =>
      if tailUnwritten = true then
        if t.noMemory = true then .error (Errno.ENOMEM, w)
        else
          match writeAt w.disk.dev t.data (fblk * bs.val) bs.val fun i =>
              if inOff ≤ i ∧ i < inOff + chunk then buf (w.src + (i - inOff)) else 0 with
          | (some e, dev) => .error (e, { w with disk := { w.disk with dev := dev } })
          | (none, dev) =>
          match markWritten w.disk.file t.mark lblk 1 with
          | (some e, f) => .error (e, { w with disk := { w.disk with file := f, dev := dev } })
          | (none, f) =>
              .ok { w with
                disk := { w.disk with file := f, dev := dev }
                written := w.written + chunk }
      else
        match writeAt w.disk.dev t.data (fblk * bs.val + inOff) chunk fun i => buf (w.src + i) with
        | (some e, dev) => .error (e, { w with disk := { w.disk with dev := dev } })
        | (none, dev) =>
            .ok { w with disk := { w.disk with dev := dev }, written := w.written + chunk }

/-! ## The loop -/

def Wr.lblk (w : Wr) : ℕ := u32 (w.pos / bs.val)

def Wr.inOff (w : Wr) : ℕ := w.pos % bs.val

def Wr.chunk (w : Wr) : ℕ := min (bs.val - w.inOff bs) w.remaining

/-- The unwritten range that the turn may write at once. -/
def fastRange (t : Turn) (w : Wr) : Option (Mapping × ℕ) :=
  if w.inOff bs = 0 ∧ bs.val ≤ w.remaining then
    (mapRange w.disk.file t.range (w.lblk bs) (u32 (w.remaining / bs.val))).filter
      fun r => r.1.unwritten && r.2 != 0
  else none

/-- A turn that takes one block. -/
def blockTurn (t : Turn) (w : Wr) : Except (Errno × Wr) Wr :=
  let tail := pastEnd t w (w.lblk bs)
  let inOff := w.inOff bs
  let chunk := w.chunk bs
  match locate bs t w (w.lblk bs) with
  | .error e => .error e
  | .ok (fblk, w') =>
      if fblk = 0 then .error (Errno.EIO, w')
      else
        let done :=
          if inOff = 0 ∧ chunk = bs.val then queueBlock bs buf t w' fblk
          else writePartial bs buf t w' (w.lblk bs) fblk inOff chunk (tail.any (·.unwritten))
        match done with
        | .error e => .error e
        | .ok w' => .ok (w'.advance chunk)

/-- A turn of the loop, with the error that ends it. -/
def turn (t : Turn) (w : Wr) : Except (Errno × Wr) Wr :=
  match fastRange bs t w with
  | some (m, n) => fastTurn bs buf t w (w.lblk bs) m n
  | none => blockTurn bs buf t w

/-- The loop. A turn nothing answers any more fails. -/
def writeLoop : List Turn → Wr → Option Errno × Wr
  | [], w => if w.remaining = 0 then (none, w) else (some Errno.EIO, w)
  | t :: ts, w =>
      if w.remaining = 0 then (none, w)
      else
        match turn bs buf t w with
        | .error (e, w) => (some e, w)
        | .ok w => writeLoop ts w

/-- Behind the loop the run that still waits is written, and counted if its command succeeds. -/
def lastRun (l : Landing Errno) (out : Option Errno × Wr) : Option Errno × Wr :=
  match flushRun bs buf l out.2 with
  | (none, w) => (out.1, { w with written := w.written + w.runBytes })
  | (some e, w) => (if out.1 = none then some e else out.1, w)

/-- How the parts below answer in a call: each turn of the loop, the command of the last run, leaving
    write-back mode, and the clock. -/
structure Answers where
  turns : List Turn
  last : Landing Errno
  leave : Option Errno
  now : ℕ

/-- The loop from its start to its last run. -/
def writeRuns (a : Answers) (d : Disk) (offset count : ℕ) : Option Errno × Wr :=
  lastRun bs buf a.last
    (writeLoop bs buf a.turns
      { disk := d, haveBlocks := u32 (blocksFor bs d.file.size), pos := offset, remaining := count,
        src := 0, runFirst := 0, runBlocks := 0, runBytes := 0, runSrc := 0, written := 0 })

/-- The loop and what follows it in `ext4b_write`: the result, `*out_written`, and the file with its
    size as far as the bytes that landed. -/
def writeBody (a : Answers) (d : Disk) (offset count : ℕ) : Option Errno × ℕ × Disk :=
  let (r, w) := writeRuns bs buf a d offset count
  let r := if 0 < w.written then none else r
  let disk :=
    if 0 < w.written then
      (if d.file.size < offset + w.written then w.disk.setSize (offset + w.written)
        else w.disk).touch a.now
    else w.disk
  (if a.leave = none then r else a.leave, w.written, disk)

end Files
