import OpenExt4.Journal.Stream

set_option autoImplicit false

/-! # Reading the log

`jbd_iterate_log`, the loop behind the scan, the revoke and the recovery pass, with the callbacks
that work on descriptor and revoke blocks. How a log block is fetched and what becomes of a
replayed block differ between the passes and with the memory at hand; the loop is given both as a
`LogAccess`. -/

namespace Jbd

open Bytes

variable {bs : ℕ} {σ : Type}

/-- `ACTION_SCAN`, `ACTION_REVOKE` and `ACTION_RECOVER`. -/
inductive Action where
  | scan
  | revoke
  | recover
  deriving DecidableEq

/-- `struct recover_info`. The revoke tree maps a block to the last transaction that revoked it;
    `env` stands for the window, the write-back batch and the devices behind them. -/
structure RecoverInfo (σ : Type) where
  startTransId : ℕ
  lastTransId : ℕ
  thisTransId : ℕ
  transCnt : ℕ
  revokeBlockCnt : ℕ
  blocksReplayed : ℕ
  revokeRoot : ℕ → Option ℕ
  rc : Option Errno
  env : σ

/-- What the loop does not do itself. `getHeader` and `getData` fetch a log block, as the header of
    the pass or as the logged copy of a block; `replay` disposes of the logged copy of a block, its
    magic still to be restored if it is escaped; `allocRevokeEntry` says whether there is memory for
    another entry of the revoke tree. -/
structure LogAccess (bs : ℕ) (σ : Type) where
  getHeader : Action → ℕ → σ → Except Errno (Buf bs) × σ
  getData : ℕ → σ → Except Errno (Buf bs) × σ
  replay : ℕ → Buf bs → Bool → σ → Option Errno × σ
  allocRevokeEntry : σ → Bool × σ

/-- Does the revoke tree keep the block of transaction `transId` from being replayed? -/
def revoked (revokeRoot : ℕ → Option ℕ) (transId block : ℕ) : Bool :=
  match revokeRoot block with
  | none => false
  | some revokeId => transIdDiff transId revokeId ≤ 0

/-- The revoke tree after transaction `id` has revoked `lbas`. -/
def revokeAll (id : ℕ) (lbas : List ℕ) (root : ℕ → Option ℕ) : ℕ → Option ℕ :=
  fun lba => if lba ∈ lbas then some id else root lba

/-- `jbd_replay_block_tags`: the callback of the recovery pass, on the position in the log and the
    state of recovery. -/
def jbdReplayBlockTags (io : LogAccess bs σ) (sb : JbdSb bs) (transId : ℕ) (tag : TagInfo)
    (st : ℕ × RecoverInfo σ) : ℕ × RecoverInfo σ :=
  let (thisBlock, info) := st
  let thisBlock := wrap sb (thisBlock + 1)
  if revoked info.revokeRoot transId tag.block then (thisBlock, info)
  else
    match io.getData thisBlock info.env with
    | (.error e, env) => (thisBlock, { info with rc := some e, env := env })
    | (.ok jdata, env) =>
        let (rc, env) := io.replay tag.block jdata tag.isEscape env
        (thisBlock,
          { info with
            blocksReplayed := info.blocksReplayed + 1
            rc := rc.or info.rc
            env := env })

/-- `jbd_display_block_tags`: the callback of the other two passes. -/
def jbdDisplayBlockTags (sb : JbdSb bs) (_tag : TagInfo) (iblock : ℕ) : ℕ := wrap sb (iblock + 1)

/-- Counting the tags of a descriptor block. -/
theorem foldl_jbdDisplayBlockTags (sb : JbdSb bs) (tags : List TagInfo) (p : ℕ) :
    tags.foldl (fun i t => jbdDisplayBlockTags sb t i) p = (adv sb)^[tags.length] p := by
  induction tags generalizing p with
  | nil => rfl
  | cons t rest ih =>
      rw [List.foldl_cons, ih, jbdDisplayBlockTags, wrap_succ, List.length_cons,
        Function.iterate_succ_apply]

/-- `jbd_add_revoke_block_tags`. -/
def jbdAddRevokeBlockTags (io : LogAccess bs σ) (info : RecoverInfo σ) (block : ℕ) :
    RecoverInfo σ :=
  match info.revokeRoot block with
  | some _ =>
      { info with revokeRoot := Function.update info.revokeRoot block (some info.thisTransId) }
  | none =>
      match io.allocRevokeEntry info.env with
      | (false, env) => { info with rc := some .ENOMEM, env := env }
      | (true, env) =>
          { info with
            revokeRoot := Function.update info.revokeRoot block (some info.thisTransId)
            env := env }

/-- `jbd_build_revoke_tree`. -/
def jbdBuildRevokeTree (io : LogAccess bs σ) (sb : JbdSb bs) (header : Buf bs)
    (info : RecoverInfo σ) : RecoverInfo σ :=
  (revokeEntries sb header).foldl (jbdAddRevokeBlockTags io) info

/-- The variables of the loop after one block of the log. -/
structure BlockStep (σ : Type) where
  r : Option Errno
  logEnd : Bool
  thisBlock : ℕ
  thisTransId : ℕ
  info : RecoverInfo σ

/-- The `switch` on the block type, for a block with the magic and the expected id. -/
def jbdProcessBlock (io : LogAccess bs σ) (sb : JbdSb bs) (action : Action) (header : Buf bs)
    (thisBlock thisTransId : ℕ) (info : RecoverInfo σ) : BlockStep σ :=
  let blocktype := get32 header 4
  if blocktype = JBD_DESCRIPTOR_BLOCK then
    if !jbdVerifyMetaCsum sb header then ⟨none, true, thisBlock, thisTransId, info⟩
    else if action = .recover then
      let (thisBlock, info) := jbdIterateBlockTable sb header BHDR_SIZE (bs - BHDR_SIZE)
        (jbdReplayBlockTags io sb thisTransId) (thisBlock, info)
      ⟨info.rc, info.rc.isSome, thisBlock, thisTransId, info⟩
    else
      let thisBlock := jbdIterateBlockTable sb header BHDR_SIZE (bs - BHDR_SIZE)
        (jbdDisplayBlockTags sb) thisBlock
      ⟨none, false, thisBlock, thisTransId, info⟩
  else if blocktype = JBD_COMMIT_BLOCK then
    if !jbdVerifyCommitCsum sb header then ⟨none, true, thisBlock, thisTransId, info⟩
    else
      ⟨none, false, thisBlock, nextTransId thisTransId,
        if action = .scan then { info with transCnt := info.transCnt + 1 } else info⟩
  else if blocktype = JBD_REVOKE_BLOCK then
    if !jbdVerifyMetaCsum sb header then ⟨none, true, thisBlock, thisTransId, info⟩
    else if action = .scan then
      ⟨none, false, thisBlock, thisTransId,
        { info with revokeBlockCnt := info.revokeBlockCnt + 1 }⟩
    else if action = .revoke then
      let info := jbdBuildRevokeTree io sb header { info with thisTransId := thisTransId }
      ⟨info.rc, info.rc.isSome, thisBlock, thisTransId, info⟩
    else ⟨none, false, thisBlock, thisTransId, info⟩
  else ⟨none, true, thisBlock, thisTransId, info⟩

/-- What the loop leaves: the error, the transaction expected next, and the state of recovery. -/
structure IterateResult (σ : Type) where
  r : Option Errno
  thisTransId : ℕ
  info : RecoverInfo σ

/-- The loop of `jbd_iterate_log`, with `fuel` bounding the header blocks it visits: on a log that
    jumps over its own start the source does not stop. -/
def jbdIterateLogLoop (io : LogAccess bs σ) (sb : JbdSb bs) (action : Action) (startBlock : ℕ) :
    ℕ → ℕ → ℕ → RecoverInfo σ → Option (IterateResult σ)
  | 0, _, _, _ => none
  | fuel + 1, thisBlock, thisTransId, info =>
      if action ≠ .scan ∧ transIdDiff thisTransId info.lastTransId > 0 then
        some ⟨none, thisTransId, info⟩
      else
        match io.getHeader action thisBlock info.env with
        | (.error e, env) => some ⟨some e, thisTransId, { info with env := env }⟩
        | (.ok header, env) =>
            let info := { info with env := env }
            if get32 header 0 ≠ JBD_MAGIC_NUMBER then some ⟨none, thisTransId, info⟩
            else if get32 header 8 ≠ thisTransId then
              some ⟨if action ≠ .scan then some Errno.EIO else none, thisTransId, info⟩
            else
              let step := jbdProcessBlock io sb action header thisBlock thisTransId info
              let thisBlock := wrap sb (step.thisBlock + 1)
              if step.logEnd ∨ thisBlock = startBlock then
                some ⟨step.r, step.thisTransId, step.info⟩
              else
                jbdIterateLogLoop io sb action startBlock fuel thisBlock step.thisTransId step.info

/-- `jbd_iterate_log`. The result is the error and the state of recovery. -/
def jbdIterateLog (io : LogAccess bs σ) (sb : JbdSb bs) (tail : JbdTail) (action : Action)
    (fuel : ℕ)
    (info : RecoverInfo σ) : Option (Option Errno × RecoverInfo σ) :=
  if action ≠ .scan ∧ info.transCnt = 0 then some (none, info)
  else
    let info := if action = .scan then { info with transCnt := 0, revokeBlockCnt := 0 } else info
    match jbdIterateLogLoop io sb action tail.start fuel tail.start tail.sequence info with
    | none => none
    | some res =>
        if res.r = none ∧ action = .scan then
          some (none,
            { res.info with
              startTransId := tail.sequence
              lastTransId :=
                if transIdDiff res.thisTransId tail.sequence > 0 then
                  (res.thisTransId + (2 ^ 32 - 1)) % 2 ^ 32
                else res.thisTransId })
        else some (res.r, res.info)

end Jbd
