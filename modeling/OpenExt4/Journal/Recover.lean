import OpenExt4.Journal.Reader
import OpenExt4.Lib.Device
import Mathlib.Data.List.SplitBy

set_option autoImplicit false

/-! # Recovery

`jbd_recover`: the three passes over the log, what becomes of a replayed block, and what is made of
the superblock at the end. Replayed blocks wait in a batch, which is sorted by block, rid of the
copies a later one replaces, and written a run at a time; without memory for the batch each block
goes to its place at once. -/

namespace Jbd

open Bytes ByteDevice

variable {bs : ℕ}

def EXT4_SUPERBLOCK_OFFSET : ℕ := 1024
def EXT4_SUPERBLOCK_SIZE : ℕ := 1024
def EXT4_SUPERBLOCK_MAGIC : ℕ := 0xEF53
def EXT4_FINCOM_RECOVER : ℕ := 0x0004
def EXT4_FRO_COM_METADATA_CSUM : ℕ := 0x0400
def JBD_REPLAY_WB_BYTES : ℕ := 4 * 1024 * 1024

/-! The fields of `struct ext4_sblock` that recovery reads or writes, by their offsets. -/

def SB_LOG_BLOCK_SIZE : ℕ := 24
def SB_MOUNT_COUNT : ℕ := 52
def SB_MAGIC : ℕ := 56
def SB_STATE : ℕ := 58
def SB_FEATURES_INCOMPATIBLE : ℕ := 96
def SB_FEATURES_READ_ONLY : ℕ := 100
def SB_CHECKSUM : ℕ := 1020

/-- What lies outside of recovery: how the calls it makes fare, by their number. `fails` is for
    reading a block of the log, taking a block of the cache, reading the superblock and allocating
    memory; `landing` is for the writes. -/
structure Outside where
  fails : ℕ → Option Errno
  landing : ℕ → Landing Errno

/-- What recovery works on. `dev` is what each block reads as, through the block cache; `sb` is
    `fs->sb`; `wnd` says whether there is a read-ahead window and `wb` is the write-back batch, if
    there is one, in the order of arrival. -/
structure Replay (bs : ℕ) where
  dev : ℕ → Buf bs
  sb : Buf EXT4_SUPERBLOCK_SIZE
  wnd : Bool
  wb : Option (List (ℕ × Buf bs))
  calls : ℕ

/-- One more call. -/
def Replay.call (out : Outside) (s : Replay bs) : Option Errno × Replay bs :=
  (out.fails s.calls, { s with calls := s.calls + 1 })

/-! ## The superblock -/

/-- The block that holds the superblock. -/
def superblockLba (bs : ℕ) : ℕ := if bs > EXT4_SUPERBLOCK_OFFSET then 0 else 1

/-- `ext4_sb_set_csum`, with `ext4_sb_csum`. -/
def ext4SbSetCsum (sb : Buf EXT4_SUPERBLOCK_SIZE) : Buf EXT4_SUPERBLOCK_SIZE :=
  if getLE 4 sb SB_FEATURES_READ_ONLY &&& EXT4_FRO_COM_METADATA_CSUM = 0 then sb
  else putLE 4 sb SB_CHECKSUM (ext4Crc32c EXT4_CRC32_INIT ((toList sb).take SB_CHECKSUM)).toNat

/-- `ext4_sb_write`, of `fs->sb`. -/
def ext4SbWrite (out : Outside) (s : Replay bs) : Option Errno × Replay bs :=
  let sb := ext4SbSetCsum s.sb
  let lba := superblockLba bs
  let data := copy (s.dev lba) (EXT4_SUPERBLOCK_OFFSET % bs) sb 0 EXT4_SUPERBLOCK_SIZE
  let s := { s with sb := sb, calls := s.calls + 1 }
  match out.landing (s.calls - 1) with
  | .lands => (none, { s with dev := Function.update s.dev lba data })
  | .fails e landed =>
      let torn : Buf bs := fun i => if landed i.val then data i else s.dev lba i
      (some e, { s with dev := Function.update s.dev lba torn })

/-- `ext4_sb_read`, its error ignored. -/
def ext4SbRead (out : Outside) (s : Replay bs) : Replay bs :=
  match s.call out with
  | (some _, s) => s
  | (none, s) =>
      { s with
        sb := slice (s.dev (superblockLba bs)) (EXT4_SUPERBLOCK_OFFSET % bs) EXT4_SUPERBLOCK_SIZE }

/-! ## Reading the log -/

/-- `jbd_block_get`; `place` is `jbd_inode_bmap`. -/
def jbdBlockGet (place : ℕ → ℕ) (out : Outside) (p : ℕ) (s : Replay bs) :
    Except Errno (Buf bs) × Replay bs :=
  if p = 0 then (.error .ENOSPC, s)
  else
    match s.call out with
    | (some e, s) => (.error e, s)
    | (none, s) => (.ok (s.dev (place p)), s)

/-- `jbd_replay_wnd_read`. The window holds what its blocks read as, since replay leaves the log
    alone. -/
def jbdReplayWndRead (sb : JbdSb bs) (place : ℕ → ℕ) (out : Outside) (p : ℕ) (s : Replay bs) :
    Except Errno (Buf bs) × Replay bs :=
  if p = sb.maxlen then (.error .EINVAL, s)
  else
    match s.call out with
    | (some e, s) => (.error e, s)
    | (none, s) => (.ok (s.dev (place p)), s)

/-! ## The batch -/

/-- `jbd_wb_cmp`, on the batch with its indices: is `a` no later than `b`? -/
def jbdWbCmp (a b : (ℕ × Buf bs) × ℕ) : Bool :=
  if a.1.1 ≠ b.1.1 then decide (a.1.1 < b.1.1) else decide (a.2 ≤ b.2)

/-- Of equal neighbours the last. -/
def keepNewest : List (ℕ × Buf bs) → List (ℕ × Buf bs)
  | [] => []
  | [w] => [w]
  | w :: v :: ws => if v.1 = w.1 then keepNewest (v :: ws) else w :: keepNewest (v :: ws)

/-- What the flush writes, in its order. -/
def writeOrder (batch : List (ℕ × Buf bs)) : List (ℕ × Buf bs) :=
  keepNewest ((batch.zipIdx.mergeSort jbdWbCmp).map Prod.fst)

/-- The runs of blocks that follow on each other. -/
def writeRuns (ws : List (ℕ × Buf bs)) : List (List (ℕ × Buf bs)) :=
  ws.splitBy fun w v => v.1 = w.1 + 1

/-- `ext4_blocks_set_direct`, of a run. -/
def ext4BlocksSetDirect (out : Outside) (run : List (ℕ × Buf bs)) (s : Replay bs) :
    Option Errno × Replay bs :=
  match run with
  | [] => (none, s)
  | (lba, data) :: rest =>
      let w := writeAt s.dev (out.landing s.calls) lba (rest.length + 1) fun k =>
        ((((lba, data) :: rest)[k]?).map Prod.snd).getD (zeros bs)
      (w.1, { s with dev := w.2, calls := s.calls + 1 })

/-- The runs, up to the first that fails. -/
def flushRuns (out : Outside) : List (List (ℕ × Buf bs)) → Replay bs → Option Errno × Replay bs
  | [], s => (none, s)
  | run :: runs, s =>
      match ext4BlocksSetDirect out run s with
      | (some e, s) => (some e, s)
      | (none, s) => flushRuns out runs s

/-- `jbd_replay_wb_flush`. -/
def jbdReplayWbFlush (out : Outside) (batch : List (ℕ × Buf bs)) (s : Replay bs) :
    Option Errno × Replay bs :=
  if batch = [] then (none, s)
  else
    match s.call out with
    | (some _, s) => (some .ENOMEM, s)
    | (none, s) =>
        let (r, s) := flushRuns out (writeRuns (writeOrder batch)) s
        (r, { s with wb := some [] })

/-- The capacity of the batch. -/
def wbCap (bs : ℕ) : ℕ := JBD_REPLAY_WB_BYTES / bs

/-- `jbd_replay_wb_record`. -/
def jbdReplayWbRecord (out : Outside) (batch : List (ℕ × Buf bs)) (lba : ℕ) (data : Buf bs)
    (s : Replay bs) : Option Errno × Replay bs :=
  let (r, s) := if batch.length = wbCap bs then jbdReplayWbFlush out batch s else (none, s)
  match r with
  | some e => (some e, s)
  | none => (none, { s with wb := s.wb.map fun batch => batch ++ [(lba, data)] })

/-- `jbd_replay_wb_new`. -/
def jbdReplayWbNew (out : Outside) (s : Replay bs) : Replay bs :=
  if wbCap bs = 0 then { s with wb := none }
  else
    match s.call out with
    | (some _, s) => { s with wb := none }
    | (none, s) => { s with wb := some [] }

/-- `jbd_replay_wnd_new`. -/
def jbdReplayWndNew (out : Outside) (s : Replay bs) : Replay bs :=
  match s.call out with
  | (some _, s) => { s with wnd := false }
  | (none, s) => { s with wnd := true }

/-! ## A replayed block -/

/-- The special treatment of the superblock: its state and mount count stay. On blocks of 1 KiB,
    where the superblock is not in block 0, the source reads past the logged copy. -/
def replaySuperblock (out : Outside) (jdata : Buf bs) (s : Replay bs) :
    Option Errno × Replay bs :=
  let mountCount := getLE 2 s.sb SB_MOUNT_COUNT
  let state := getLE 2 s.sb SB_STATE
  let sb : Buf EXT4_SUPERBLOCK_SIZE := slice jdata EXT4_SUPERBLOCK_OFFSET EXT4_SUPERBLOCK_SIZE
  let (r, s) := ext4SbWrite out { s with sb := putLE 2 sb SB_STATE state }
  match r with
  | some e => (some e, s)
  | none => (none, { s with sb := putLE 2 s.sb SB_MOUNT_COUNT mountCount })

/-- What `jbd_replay_block_tags` does with a logged copy. -/
def replayBlock (out : Outside) (block : ℕ) (jdata : Buf bs) (isEscape : Bool) (s : Replay bs) :
    Option Errno × Replay bs :=
  if block = 0 then replaySuperblock out jdata s
  else
    match s.wb with
    | some batch => jbdReplayWbRecord out batch block (unescapeData isEscape jdata) s
    | none =>
        match s.call out with
        | (some e, s) => (some e, s)
        | (none, s) =>
            (none, { s with dev := Function.update s.dev block (unescapeData isEscape jdata) })

/-- Recovery's side of the loop over the log. -/
def recoverAccess (sb : JbdSb bs) (place : ℕ → ℕ) (out : Outside) : LogAccess bs (Replay bs) where
  getHeader action p s :=
    if action = .recover ∧ s.wnd = true then jbdReplayWndRead sb place out p s
    else jbdBlockGet place out p s
  getData p s :=
    if s.wnd = true then jbdReplayWndRead sb place out p s else jbdBlockGet place out p s
  replay := replayBlock out
  allocRevokeEntry s := ((s.call out).1.isNone, (s.call out).2)

/-! ## Recovery -/

/-- The end of a replay that did not fail. -/
def finishRecovery (out : Outside) (tail : JbdTail) (lastTransId : ℕ) (s : Replay bs) :
    Option Errno × JbdTail × Replay bs :=
  let s := ext4SbRead out s
  if getLE 2 s.sb SB_MAGIC ≠ EXT4_SUPERBLOCK_MAGIC ∨ getLE 4 s.sb SB_LOG_BLOCK_SIZE > 6 then
    (some Errno.EIO, tail, s)
  else
    let features := getLE 4 s.sb SB_FEATURES_INCOMPATIBLE
    let cleared := features &&& (2 ^ 32 - 1 - EXT4_FINCOM_RECOVER)
    let (r, s) := ext4SbWrite out { s with sb := putLE 4 s.sb SB_FEATURES_INCOMPATIBLE cleared }
    (r, ⟨0, lastTransId⟩, s)

/-- The recovery pass, with its batch flushed. -/
def recoverPass (sb : JbdSb bs) (place : ℕ → ℕ) (out : Outside) (tail : JbdTail) (fuel : ℕ)
    (info : RecoverInfo (Replay bs)) : Option (Option Errno × Replay bs) :=
  let info := { info with env := jbdReplayWbNew out (jbdReplayWndNew out info.env) }
  match jbdIterateLog (recoverAccess sb place out) sb tail .recover fuel info with
  | none => none
  | some (some e, info) => some (some e, { info.env with wnd := false, wb := none })
  | some (none, info) =>
      let (r, s) :=
        match info.env.wb with
        | some batch => jbdReplayWbFlush out batch info.env
        | none => (none, info.env)
      some (r, { s with wnd := false, wb := none })

/-- The revoke pass, if the scan saw a revoke block. -/
def revokePass (sb : JbdSb bs) (place : ℕ → ℕ) (out : Outside) (tail : JbdTail) (fuel : ℕ)
    (info : RecoverInfo (Replay bs)) : Option (Option Errno × RecoverInfo (Replay bs)) :=
  if info.revokeBlockCnt = 0 then some (none, info)
  else jbdIterateLog (recoverAccess sb place out) sb tail .revoke fuel info

/-- `jbd_recover`. The fuel bounds the header blocks each pass visits; the result is the error, the
    tail of the journal superblock and what recovery worked on. -/
def jbdRecover (sb : JbdSb bs) (place : ℕ → ℕ) (out : Outside) (fuel : ℕ) (tail : JbdTail)
    (s : Replay bs) : Option (Option Errno × JbdTail × Replay bs) :=
  if tail.start = 0 then some (none, tail, s)
  else
    let info : RecoverInfo (Replay bs) :=
      ⟨0, 0, 0, 0, 0, 0, fun _ => none, none, { s with wnd := false, wb := none }⟩
    match jbdIterateLog (recoverAccess sb place out) sb tail .scan fuel info with
    | none => none
    | some (some e, info) => some (some e, tail, info.env)
    | some (none, info) =>
        match revokePass sb place out tail fuel info with
        | none => none
        | some (some e, info) => some (some e, tail, info.env)
        | some (none, info) =>
            match recoverPass sb place out tail fuel info with
            | none => none
            | some (some e, s) => some (some e, tail, s)
            | some (none, s) => some (finishRecovery out tail info.lastTransId s)

end Jbd
