import Mathlib.Data.List.DropRight
import OpenExt4.Journal.Stream
import OpenExt4.Lib.Writes

set_option autoImplicit false

/-! # Writing a transaction to the log

`jbd_journal_prepare`, `jbd_journal_prepare_revoke` and `jbd_trans_write_commit_block` with the
block allocation they share. The journal file is addressed by its own block numbers
(`jbd_inode_bmap` maps them one to one), and device commands succeed: what a failing device leaves
behind is the business of the commit and of recovery, not of the format. -/

namespace Jbd

open Bytes

variable {bs : ℕ} {σ : Type}

/-! ## Allocation in the ring -/

/-- The part of `struct jbd_journal` that places records; `rest` is everything a checkpoint works
    on (the checkpoint queue, the cache and the device). -/
structure Journal (σ : Type) where
  start : ℕ
  publishedStart : ℕ
  last : ℕ
  rest : σ

/-- The two calls of the allocator that leave this module. `purge` is
    `jbd_journal_purge_cp_trans(journal, true, true)`, which returns the new tail; `writeSb` is
    `jbd_write_sb`. A purge moves the tail forward over whole committed transactions, so at most
    to the end of the newest one, and commits nothing itself. -/
structure Checkpoint (sb : JbdSb bs) (σ : Type) where
  purge : ℕ → σ → ℕ × σ
  writeSb : σ → Bool × σ
  committedEnd : σ → ℕ
  purge_inLog : ∀ start rest, InLog sb start → InLog sb (purge start rest).1
  purge_forward : ∀ start rest, InLog sb start →
    Circular.dist sb.first sb.maxlen start (purge start rest).1
      ≤ Circular.dist sb.first sb.maxlen start (committedEnd rest)
  committedEnd_purge : ∀ start rest, committedEnd (purge start rest).2 = committedEnd rest
  committedEnd_writeSb : ∀ rest, committedEnd (writeSb rest).2 = committedEnd rest

/-- The state of a commit: the journal, the log blocks on the medium, the payload gathered in
    `struct jbd_commit_wb`, and the transaction's own account of its space. -/
structure CommitState (bs : ℕ) (σ : Type) where
  journal : Journal σ
  log : ℕ → Buf bs
  wb : List (ℕ × Buf bs)
  startIblock : ℕ
  allocBlocks : ℕ

/-- Publish the tail: `jbd_write_sb`, and on success `published_start = start`. -/
def publish {sb : JbdSb bs} (cp : Checkpoint sb σ) (j : Journal σ) : Journal σ :=
  let (ok, rest) := cp.writeSb j.rest
  { j with publishedStart := if ok then j.start else j.publishedStart, rest := rest }

/-- The head must not run over the tail as the medium knows it: publish when it is about to. -/
def publishBeforeLap {sb : JbdSb bs} (cp : Checkpoint sb σ) (j : Journal σ) : Journal σ :=
  if j.last = j.publishedStart ∧ j.last ≠ j.start then publish cp j else j

/-- `jbd_journal_alloc_block`; block `0` says that the ring is full. -/
def jbdJournalAllocBlock {sb : JbdSb bs} (cp : Checkpoint sb σ) (st : CommitState bs σ) :
    ℕ × CommitState bs σ :=
  let startBlock := st.journal.last
  let j : Journal σ := { st.journal with last := wrap sb (st.journal.last + 1) }
  if j.last = j.start then
    let (start, rest) := cp.purge j.start j.rest
    let j : Journal σ := { j with start := start, rest := rest }
    if j.last = j.start then
      (0, { st with journal := { j with last := startBlock } })
    else
      (startBlock,
        { st with
          journal := publishBeforeLap cp (publish cp j)
          allocBlocks := st.allocBlocks + 1 })
  else
    (startBlock,
      { st with journal := publishBeforeLap cp j, allocBlocks := st.allocBlocks + 1 })

/-! ## The transaction and its environment -/

/-- The fields of `struct jbd_buf` a commit uses; `dirty` is the cache flag of its buffer. -/
structure JbdBuf (bs : ℕ) where
  lba : ℕ
  data : Buf bs
  dirty : Bool

/-- The fields of `struct jbd_trans` a commit uses; the revoke tree is given in its order. -/
structure JbdTrans (bs : ℕ) where
  transId : ℕ
  dataCnt : ℕ
  bufQueue : List (JbdBuf bs)
  revokeRoot : List ℕ

/-- What the writer meets and does not choose: the bytes in the buffers `jbd_block_get_noread`
    hands out, and the capacity of the commit batch (`none` when its memory was not to be had). -/
structure CommitEnv (bs : ℕ) where
  noread : ℕ → Buf bs
  wbCap : Option ℕ

/-- The blocks a transaction logs: what is still dirty on its queue. -/
def loggedBlocks (bufs : List (JbdBuf bs)) : List (ℕ × Buf bs) :=
  (bufs.filter JbdBuf.dirty).map fun b => (b.lba, b.data)

/-! ## Descriptor and data blocks -/

/-- A record that is being filled in its buffer: where it goes, its bytes, the offset of the next
    entry and the bytes left for entries. -/
structure OpenRecord (bs : ℕ) where
  iblock : ℕ
  block : Buf bs
  ptr : ℕ
  tagTblSize : ℕ

/-- Allocate a log block and start a record in its buffer. The transaction starts at the first
    block it allocates for a record. -/
def openRecord {sb : JbdSb bs} (cp : Checkpoint sb σ) (env : CommitEnv bs)
    (blocktype transId headerSize : ℕ) (st : CommitState bs σ) :
    Except Errno (OpenRecord bs × CommitState bs σ) :=
  let (iblock, st) := jbdJournalAllocBlock cp st
  if iblock = 0 then .error .ENOSPC
  else
    .ok ({ iblock := iblock
           block := setHeader (env.noread iblock) blocktype transId
           ptr := headerSize
           tagTblSize := bs - headerSize - tailSize sb },
      { st with startIblock := if st.startIblock = 0 then iblock else st.startIblock })

/-- `jbd_meta_csum_set` and the release of the record's buffer, which writes it through. -/
def closeRecord (sb : JbdSb bs) (d : OpenRecord bs) (st : CommitState bs σ) : CommitState bs σ :=
  { st with log := Function.update st.log d.iblock (jbdMetaCsumSet sb d.block) }

/-- The part of the loop from `again` to the written tag. A fresh descriptor block has room for
    its first tag, so that two attempts suffice. -/
def placeTag {sb : JbdSb bs} (cp : Checkpoint sb σ) (env : CommitEnv bs) (transId : ℕ)
    (info : TagInfo) : ℕ → Option (OpenRecord bs) → CommitState bs σ →
    Except Errno (OpenRecord bs × CommitState bs σ)
  | 0, _, _ => .error .EINVAL
  | tries + 1, some d, st =>
      match jbdWriteBlockTag sb d.block d.ptr d.tagTblSize { info with uuidExist := false } with
      | .ok (block, size) =>
          .ok ({ d with block := block, ptr := d.ptr + size, tagTblSize := d.tagTblSize - size },
            st)
      | .error block =>
          placeTag cp env transId info tries none (closeRecord sb { d with block := block } st)
  | tries + 1, none, st =>
      match openRecord cp env JBD_DESCRIPTOR_BLOCK transId BHDR_SIZE st with
      | .error e => .error e
      | .ok (d, st) =>
          match jbdWriteBlockTag sb d.block d.ptr d.tagTblSize { info with uuidExist := true } with
          | .ok (block, size) =>
              .ok ({ d with block := block, ptr := d.ptr + size,
                            tagTblSize := d.tagTblSize - size }, st)
          | .error block =>
              placeTag cp env transId info tries none
                (closeRecord sb { d with block := block } st)

/-- `jbd_commit_wb_flush`. -/
def jbdCommitWbFlush (st : CommitState bs σ) : CommitState bs σ :=
  { st with log := Writes.apply st.wb st.log, wb := [] }

/-- A data block on its way to the log: `jbd_commit_wb_record`, or a write through the cache when
    there is no batch. -/
def recordData (env : CommitEnv bs) (iblock : ℕ) (image : Buf bs) (st : CommitState bs σ) :
    CommitState bs σ :=
  match env.wbCap with
  | none => { st with log := Function.update st.log iblock image }
  | some cap =>
      let st := if st.wb.length = cap then jbdCommitWbFlush st else st
      { st with wb := st.wb ++ [(iblock, image)] }

/-- The variables of the loop of `jbd_journal_prepare`. -/
structure PrepareState (bs : ℕ) (σ : Type) where
  commit : CommitState bs σ
  desc : Option (OpenRecord bs)
  i : ℕ
  dataCnt : ℕ
  checksum : UInt32

/-- One round of that loop: a buffer that is no longer dirty is let go, a dirty one gets a tag and
    a log block. -/
def prepareBuf {sb : JbdSb bs} (cp : Checkpoint sb σ) (env : CommitEnv bs) (transId : ℕ)
    (st : PrepareState bs σ) (buf : JbdBuf bs) : Except Errno (PrepareState bs σ) :=
  if !buf.dirty then .ok { st with dataCnt := st.dataCnt - 1 }
  else
    let checksum := jbdBlockCsum sb buf.data st.checksum transId
    let isEscape := needsEscape buf.data
    let info : TagInfo :=
      { tagBytes := 0
        block := buf.lba
        isEscape := isEscape
        uuidExist := false
        uuid := sb.uuid
        lastTag := st.i + 1 == st.dataCnt
        checksum := checksum.toNat }
    match placeTag cp env transId info 2 st.desc st.commit with
    | .error e => .error e
    | .ok (d, commit) =>
        let (iblock, commit) := jbdJournalAllocBlock cp commit
        if iblock = 0 then .error .ENOSPC
        else
          .ok { st with
            commit := recordData env iblock (escapeData isEscape buf.data) commit
            desc := some d
            i := st.i + 1
            checksum := checksum }

/-- The loop over the queue. -/
def prepareBufs {sb : JbdSb bs} (cp : Checkpoint sb σ) (env : CommitEnv bs) (transId : ℕ) :
    List (JbdBuf bs) → PrepareState bs σ → Except Errno (PrepareState bs σ)
  | [], st => .ok st
  | buf :: bufs, st =>
      match prepareBuf cp env transId st buf with
      | .error e => .error e
      | .ok st => prepareBufs cp env transId bufs st

/-- `jbd_journal_prepare`. Clean buffers at the tail of the queue are dropped first. The result
    comes with `data_csum`. -/
def jbdJournalPrepare {sb : JbdSb bs} (cp : Checkpoint sb σ) (env : CommitEnv bs)
    (trans : JbdTrans bs) (st : CommitState bs σ) : Except Errno (CommitState bs σ × UInt32) :=
  let bufQueue := trans.bufQueue.rdropWhile fun b => !b.dirty
  let dataCnt := trans.dataCnt - (trans.bufQueue.length - bufQueue.length)
  let start : PrepareState bs σ :=
    { commit := st, desc := none, i := 0, dataCnt := dataCnt, checksum := EXT4_CRC32_INIT }
  match prepareBufs cp env trans.transId bufQueue start with
  | .error e => .error e
  | .ok fin =>
      match fin.desc with
      | none => .ok (jbdCommitWbFlush fin.commit, EXT4_CRC32_INIT)
      | some d => .ok (jbdCommitWbFlush (closeRecord sb d fin.commit), fin.checksum)

/-! ## Revoke blocks -/

/-- Close a revoke block: fill in `count`, the bytes used, and release it. -/
def closeRevoke (sb : JbdSb bs) (d : OpenRecord bs) (st : CommitState bs σ) : CommitState bs σ :=
  closeRecord sb { d with block := set32 d.block 12 (bs - d.tagTblSize - tailSize sb) } st

/-- The part of the loop of `jbd_journal_prepare_revoke` from `again` on. -/
def placeRevoke {sb : JbdSb bs} (cp : Checkpoint sb σ) (env : CommitEnv bs) (transId lba : ℕ) :
    ℕ → Option (OpenRecord bs) → CommitState bs σ →
    Except Errno (OpenRecord bs × CommitState bs σ)
  | 0, _, _ => .error .EINVAL
  | tries + 1, some d, st =>
      if d.tagTblSize < revokeRecordLen sb then
        placeRevoke cp env transId lba tries none (closeRevoke sb d st)
      else
        .ok ({ d with
          block := putBE (revokeRecordLen sb) d.block d.ptr lba
          ptr := d.ptr + revokeRecordLen sb
          tagTblSize := d.tagTblSize - revokeRecordLen sb }, st)
  | tries + 1, none, st =>
      match openRecord cp env JBD_REVOKE_BLOCK transId REVOKE_HEADER_SIZE st with
      | .error e => .error e
      | .ok (d, st) => placeRevoke cp env transId lba tries (some d) st

/-- The loop over the revoke tree. -/
def prepareRevokes {sb : JbdSb bs} (cp : Checkpoint sb σ) (env : CommitEnv bs) (transId : ℕ) :
    List ℕ → Option (OpenRecord bs) → CommitState bs σ →
    Except Errno (Option (OpenRecord bs) × CommitState bs σ)
  | [], desc, st => .ok (desc, st)
  | lba :: lbas, desc, st =>
      match placeRevoke cp env transId lba 3 desc st with
      | .error e => .error e
      | .ok (d, st) => prepareRevokes cp env transId lbas (some d) st

/-- `jbd_journal_prepare_revoke`. -/
def jbdJournalPrepareRevoke {sb : JbdSb bs} (cp : Checkpoint sb σ) (env : CommitEnv bs)
    (trans : JbdTrans bs) (st : CommitState bs σ) : Except Errno (CommitState bs σ) :=
  match prepareRevokes cp env trans.transId trans.revokeRoot none st with
  | .error e => .error e
  | .ok (none, st) => .ok st
  | .ok (some d, st) => .ok (closeRevoke sb d st)

/-! ## The commit block -/

/-- `jbd_trans_write_commit_block`. -/
def jbdTransWriteCommitBlock {sb : JbdSb bs} (cp : Checkpoint sb σ) (env : CommitEnv bs)
    (transId : ℕ) (dataCsum : UInt32) (st : CommitState bs σ) :
    Except Errno (CommitState bs σ) :=
  let (iblock, st) := jbdJournalAllocBlock cp st
  if iblock = 0 then .error .ENOSPC
  else
    .ok { st with
      log := Function.update st.log iblock
        (commitBlock sb (env.noread iblock) transId dataCsum.toNat) }

/-- The three steps in the order of `__jbd_journal_commit_trans`. -/
def writeTrans {sb : JbdSb bs} (cp : Checkpoint sb σ) (env : CommitEnv bs) (trans : JbdTrans bs)
    (st : CommitState bs σ) : Except Errno (CommitState bs σ) :=
  match jbdJournalPrepare cp env trans st with
  | .error e => .error e
  | .ok (st, dataCsum) =>
      match jbdJournalPrepareRevoke cp env trans st with
      | .error e => .error e
      | .ok st => jbdTransWriteCommitBlock cp env trans.transId dataCsum st

end Jbd
