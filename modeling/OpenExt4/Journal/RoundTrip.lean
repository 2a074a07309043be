import OpenExt4.Journal.Reader
import OpenExt4.Journal.WriterProofs

set_option autoImplicit false

/-! # The writer and the reader of the log agree

Reading the run of a transaction: every pass of `jbd_iterate_log` goes through it block by block
and comes out behind it, having seen exactly the transaction. With what the writer lays down
(`writeTrans_spec`) this is the round trip. -/

namespace Jbd

open Bytes

variable {bs : ℕ} {sb : JbdSb bs}

/-! ## A log at rest

The round trip is about the format, so the log is read as it stands and a replayed block is put on
record with the magic restored, as `jbd_replay_wb_record` does. -/

/-- Log blocks come from `log`, replayed blocks are listed in order. -/
def collectLog (log : ℕ → Buf bs) : LogAccess bs (List (ℕ × Buf bs)) where
  getHeader := fun _ p s => (if p = 0 then .error .ENOSPC else .ok (log p), s)
  getData := fun p s => (if p = 0 then .error .ENOSPC else .ok (log p), s)
  replay := fun block jdata isEscape s => (none, s ++ [(block, unescapeData isEscape jdata)])
  allocRevokeEntry := fun s => (true, s)

/-- The state of recovery after a pass has seen the blocks `blocks` of a transaction. -/
def seeBlocks (action : Action) (blocks : List (ℕ × Buf bs))
    (info : RecoverInfo (List (ℕ × Buf bs))) : RecoverInfo (List (ℕ × Buf bs)) :=
  if action = .recover then
    { info with
      env := info.env ++ blocks
      blocksReplayed := info.blocksReplayed + blocks.length }
  else info

@[simp] theorem seeBlocks_revokeRoot (action : Action) (blocks : List (ℕ × Buf bs))
    (info : RecoverInfo (List (ℕ × Buf bs))) :
    (seeBlocks action blocks info).revokeRoot = info.revokeRoot := by
  unfold seeBlocks
  split <;> rfl

@[simp] theorem seeBlocks_rc (action : Action) (blocks : List (ℕ × Buf bs))
    (info : RecoverInfo (List (ℕ × Buf bs))) : (seeBlocks action blocks info).rc = info.rc := by
  unfold seeBlocks
  split <;> rfl

@[simp] theorem seeBlocks_lastTransId (action : Action) (blocks : List (ℕ × Buf bs))
    (info : RecoverInfo (List (ℕ × Buf bs))) :
    (seeBlocks action blocks info).lastTransId = info.lastTransId := by
  unfold seeBlocks
  split <;> rfl

theorem seeBlocks_nil (action : Action) (info : RecoverInfo (List (ℕ × Buf bs))) :
    seeBlocks action [] info = info := by
  unfold seeBlocks
  split
  · simp
  · rfl

theorem seeBlocks_append (action : Action) (blocks more : List (ℕ × Buf bs))
    (info : RecoverInfo (List (ℕ × Buf bs))) :
    seeBlocks action more (seeBlocks action blocks info)
      = seeBlocks action (blocks ++ more) info := by
  unfold seeBlocks
  split
  · simp [Nat.add_assoc]
  · rfl

/-- The state of recovery after a pass has seen `n` revoke blocks with the records `lbas`. -/
def seeRevokes (action : Action) (id : ℕ) (lbas : List ℕ) (n : ℕ)
    (info : RecoverInfo (List (ℕ × Buf bs))) : RecoverInfo (List (ℕ × Buf bs)) :=
  match action with
  | .scan => { info with revokeBlockCnt := info.revokeBlockCnt + n }
  | .revoke =>
      { info with
        thisTransId := if n = 0 then info.thisTransId else id
        revokeRoot := revokeAll id lbas info.revokeRoot }
  | .recover => info

@[simp] theorem seeRevokes_lastTransId (action : Action) (id : ℕ) (lbas : List ℕ) (n : ℕ)
    (info : RecoverInfo (List (ℕ × Buf bs))) :
    (seeRevokes action id lbas n info).lastTransId = info.lastTransId := by
  cases action <;> rfl

@[simp] theorem seeRevokes_rc (action : Action) (id : ℕ) (lbas : List ℕ) (n : ℕ)
    (info : RecoverInfo (List (ℕ × Buf bs))) :
    (seeRevokes action id lbas n info).rc = info.rc := by
  cases action <;> rfl

theorem seeRevokes_nil (action : Action) (id : ℕ) (info : RecoverInfo (List (ℕ × Buf bs))) :
    seeRevokes action id [] 0 info = info := by
  cases action <;> rfl

theorem seeRevokes_append (action : Action) (id : ℕ) (lbas more : List ℕ) (n m : ℕ)
    (info : RecoverInfo (List (ℕ × Buf bs))) :
    seeRevokes action id more m (seeRevokes action id lbas n info)
      = seeRevokes action id (lbas ++ more) (n + m) info := by
  cases action with
  | scan => simp [seeRevokes, Nat.add_assoc]
  | recover => rfl
  | revoke =>
      have htree : revokeAll id more (revokeAll id lbas info.revokeRoot)
          = revokeAll id (lbas ++ more) info.revokeRoot := by
        funext lba
        simp only [revokeAll, List.mem_append]
        split_ifs <;> simp_all
      simp only [seeRevokes, htree]
      congr 1
      split_ifs <;> first | rfl | omega

/-! ## One block -/

variable {log : ℕ → Buf bs} {id p : ℕ} {info : RecoverInfo (List (ℕ × Buf bs))}

/-- No record lies in block 0 of a log that starts behind the journal superblock. -/
theorem inLog_ne_zero (hfirst : 0 < sb.first) (h : InLog sb p) : p ≠ 0 := by
  have := h.1
  omega

/-- Replaying the tags of a descriptor block: the images follow it in the log. -/
theorem foldl_jbdReplayBlockTags {tags : List TagInfo} {chunk : List (ℕ × Buf bs)}
    (hfirst : 0 < sb.first) (hp : InLog sb p)
    (hroot : ∀ w ∈ chunk, info.revokeRoot w.1 = none) (hrc : info.rc = none)
    (htags : tags.map (fun t => (t.block, t.isEscape)) = chunk.map tagKey)
    (hlog : OnLog sb log (adv sb p) (chunk.map logImage)) :
    tags.foldl (fun st t => jbdReplayBlockTags (collectLog log) sb id t st) (p, info)
      = ((adv sb)^[chunk.length] p, seeBlocks .recover chunk info) := by
  induction chunk generalizing tags p info with
  | nil =>
      obtain rfl : tags = [] := by simpa using htags
      simp [seeBlocks]
  | cons w rest ih =>
      cases tags with
      | nil => simp at htags
      | cons t tags =>
          rw [List.map_cons, List.map_cons, List.cons.injEq] at htags
          obtain ⟨hkey, htags⟩ := htags
          obtain ⟨hblock, hescape⟩ := Prod.mk.inj hkey
          rw [List.map_cons, onLog_cons] at hlog
          have hnext : InLog sb (adv sb p) := hp.next
          have hdata : unescapeData t.isEscape (log (adv sb p)) = w.2 := by
            rw [hlog.1, hescape, logImage, unescapeData_escapeData]
          have hstep : jbdReplayBlockTags (collectLog log) sb id t (p, info)
              = (adv sb p, seeBlocks .recover [w] info) := by
            have hfree : revoked info.revokeRoot id w.1 = false := by
              rw [revoked, hroot w (List.mem_cons_self ..)]
            simp only [jbdReplayBlockTags, hblock, hfree, Bool.false_eq_true, if_false, collectLog,
              wrap_succ, if_neg (inLog_ne_zero hfirst hnext), hdata, hrc, seeBlocks, if_true]
            rfl
          have hroot' : ∀ v ∈ rest, (seeBlocks .recover [w] info).revokeRoot v.1 = none := by
            intro v hv
            rw [seeBlocks_revokeRoot]
            exact hroot v (List.mem_cons_of_mem _ hv)
          rw [List.foldl_cons, hstep,
            ih hnext hroot' ((seeBlocks_rc _ _ _).trans hrc) htags hlog.2, seeBlocks_append]
          rfl

/-- A descriptor block with its images. -/
theorem jbdProcessBlock_desc {action : Action} {chunk : List (ℕ × Buf bs)} {d : Buf bs}
    (hfirst : 0 < sb.first) (hp : InLog sb p) (hd : Describes sb id chunk d)
    (hroot : ∀ w ∈ chunk, info.revokeRoot w.1 = none) (hrc : info.rc = none)
    (hlog : OnLog sb log (adv sb p) (chunk.map logImage)) :
    jbdProcessBlock (collectLog log) sb action d p id info
      = ⟨none, false, (adv sb)^[chunk.length] p, id, seeBlocks action chunk info⟩ := by
  have hlen : (descriptorTags sb d).length = chunk.length := by
    simpa using congrArg List.length hd.tags
  unfold jbdProcessBlock
  dsimp only
  rw [if_pos hd.header.blocktype, hd.csum, Bool.not_true, if_neg Bool.false_ne_true]
  cases action with
  | recover =>
      rw [if_pos rfl, jbdIterateBlockTable_eq_foldl,
        foldl_jbdReplayBlockTags hfirst hp hroot hrc hd.tags hlog]
      simp [hrc]
  | scan =>
      rw [if_neg (by decide), jbdIterateBlockTable_eq_foldl, foldl_jbdDisplayBlockTags, hlen]
      rfl
  | revoke =>
      rw [if_neg (by decide), jbdIterateBlockTable_eq_foldl, foldl_jbdDisplayBlockTags, hlen]
      rfl

/-- Adding records to the revoke tree. -/
theorem foldl_jbdAddRevokeBlockTags (lbas : List ℕ) (hthis : info.thisTransId = id) :
    lbas.foldl (jbdAddRevokeBlockTags (collectLog log)) info
      = { info with revokeRoot := revokeAll id lbas info.revokeRoot } := by
  induction lbas generalizing info with
  | nil => rfl
  | cons lba rest ih =>
      have hstep : jbdAddRevokeBlockTags (collectLog log) info lba
          = { info with revokeRoot := Function.update info.revokeRoot lba (some id) } := by
        unfold jbdAddRevokeBlockTags
        rw [hthis]
        split <;> rfl
      have hthis' : ({ info with revokeRoot := Function.update info.revokeRoot lba (some id) } :
          RecoverInfo (List (ℕ × Buf bs))).thisTransId = id := hthis
      rw [List.foldl_cons, hstep, ih hthis']
      congr 1
      funext l
      unfold revokeAll
      by_cases hrest : l ∈ rest
      · simp [hrest]
      · by_cases heq : l = lba <;> simp [hrest, heq]

/-- A revoke block. -/
theorem jbdProcessBlock_revoke {action : Action} {lbas : List ℕ} {d : Buf bs}
    (hd : RevokesBlocks sb id lbas d) (hrc : info.rc = none) :
    jbdProcessBlock (collectLog log) sb action d p id info
      = ⟨none, false, p, id, seeRevokes action id lbas 1 info⟩ := by
  unfold jbdProcessBlock
  dsimp only
  rw [hd.header.blocktype, if_neg (by decide), if_neg (by decide), if_pos rfl, hd.csum,
    Bool.not_true, if_neg Bool.false_ne_true]
  cases action with
  | scan => rfl
  | recover => rfl
  | revoke =>
      rw [if_neg (by decide), if_pos rfl, jbdBuildRevokeTree, hd.entries,
        foldl_jbdAddRevokeBlockTags lbas rfl]
      simp [hrc, seeRevokes]

/-- A commit block. -/
theorem jbdProcessBlock_commit {action : Action} {c : Buf bs} (hc : Commits sb id c) :
    jbdProcessBlock (collectLog log) sb action c p id info
      = ⟨none, false, p, nextTransId id,
          if action = .scan then { info with transCnt := info.transCnt + 1 } else info⟩ := by
  unfold jbdProcessBlock
  dsimp only
  rw [hc.header.blocktype, if_neg (by decide), if_pos rfl, hc.csum, Bool.not_true,
    if_neg Bool.false_ne_true]

/-! ## A run of blocks -/

variable {action : Action} {startBlock : ℕ}

/-- The pass has not gone past its last transaction. -/
def InPass (action : Action) (id : ℕ) (info : RecoverInfo (List (ℕ × Buf bs))) : Prop :=
  action = .scan ∨ transIdDiff id info.lastTransId ≤ 0

/-- One round of the loop over an accepted block. -/
theorem jbdIterateLogLoop_step {blocktype q id' : ℕ} {info' : RecoverInfo (List (ℕ × Buf bs))}
    (hfirst : 0 < sb.first) (hp : InLog sb p) (hpass : InPass action id info)
    (hheader : HeaderIs (log p) blocktype id)
    (hstep : jbdProcessBlock (collectLog log) sb action (log p) p id info
      = ⟨none, false, q, id', info'⟩)
    (hne : adv sb q ≠ startBlock) (fuel : ℕ) :
    jbdIterateLogLoop (collectLog log) sb action startBlock (fuel + 1) p id info
      = jbdIterateLogLoop (collectLog log) sb action startBlock fuel (adv sb q) id' info' := by
  have hgo : ¬ (action ≠ .scan ∧ transIdDiff id info.lastTransId > 0) := by
    rintro ⟨hscan, hpast⟩
    rcases hpass with hscan' | hle
    · exact hscan hscan'
    · omega
  have hget : (collectLog log).getHeader action p info.env = (.ok (log p), info.env) := by
    simp [collectLog, inLog_ne_zero hfirst hp]
  rw [jbdIterateLogLoop, if_neg hgo, hget]
  simp only [hheader.magic, hheader.sequence, ne_eq, not_true_eq_false, if_false, hstep, wrap_succ,
    Bool.false_eq_true, false_or, if_neg hne]

/-- The data part of a transaction. -/
theorem jbdIterateLogLoop_descStream {blocks : List (ℕ × Buf bs)} {s : List (Buf bs)}
    (hfirst : 0 < sb.first) (h : DescStream sb id blocks s) (hlog : OnLog sb log p s)
    (hp : InLog sb p)
    (hpass : InPass action id info) (hroot : ∀ w ∈ blocks, info.revokeRoot w.1 = none)
    (hrc : info.rc = none)
    (hstart : ∀ k, 0 < k → k ≤ s.length → (adv sb)^[k] p ≠ startBlock) :
    ∃ n ≤ s.length, ∀ fuel,
      jbdIterateLogLoop (collectLog log) sb action startBlock (fuel + n) p id info
        = jbdIterateLogLoop (collectLog log) sb action startBlock fuel ((adv sb)^[s.length] p) id
            (seeBlocks action blocks info) := by
  induction h generalizing p info with
  | nil => exact ⟨0, le_rfl, fun fuel => by rw [seeBlocks_nil]; rfl⟩
  | @cons chunk d blocks stream hd _ ih =>
      rw [List.cons_append, onLog_cons, onLog_append, List.length_map] at hlog
      obtain ⟨hhead, himages, hrest⟩ := hlog
      have hlen : (d :: chunk.map logImage ++ stream).length
          = stream.length + (chunk.length + 1) := by
        simp only [List.length_append, List.length_cons, List.length_map]
        omega
      rw [← Function.iterate_succ_apply] at hrest
      have hnext : InLog sb ((adv sb)^[chunk.length + 1] p) := hp.iterate _
      have hsee : ∀ w ∈ blocks, (seeBlocks action chunk info).revokeRoot w.1 = none := by
        intro w hw
        rw [seeBlocks_revokeRoot]
        exact hroot w (List.mem_append_right _ hw)
      have hpass' : InPass action id (seeBlocks action chunk info) := by
        unfold InPass
        rw [seeBlocks_lastTransId]
        exact hpass
      obtain ⟨n, hn, hloop⟩ := ih hrest hnext hpass' hsee ((seeBlocks_rc _ _ _).trans hrc)
        (fun k hpos hk => by
          rw [← Function.iterate_add_apply]
          exact hstart _ (by omega) (by omega))
      refine ⟨n + 1, by omega, fun fuel => ?_⟩
      have hblock : jbdProcessBlock (collectLog log) sb action (log p) p id info
          = ⟨none, false, (adv sb)^[chunk.length] p, id, seeBlocks action chunk info⟩ :=
        jbdProcessBlock_desc hfirst hp (hhead.symm ▸ hd)
          (fun w hw => hroot w (List.mem_append_left _ hw)) hrc himages
      rw [← Nat.add_assoc, jbdIterateLogLoop_step hfirst hp hpass (hhead.symm ▸ hd.header) hblock
        (by
          rw [← Function.iterate_succ_apply' (adv sb) chunk.length p]
          exact hstart _ (by omega) (by omega)),
        ← Function.iterate_succ_apply' (adv sb) chunk.length p, hloop, seeBlocks_append, hlen,
        Function.iterate_add_apply]

/-- The revoke part of a transaction. -/
theorem jbdIterateLogLoop_revokeStream {lbas : List ℕ} {s : List (Buf bs)}
    (hfirst : 0 < sb.first) (h : RevokeStream sb id lbas s) (hlog : OnLog sb log p s)
    (hp : InLog sb p)
    (hpass : InPass action id info) (hrc : info.rc = none)
    (hstart : ∀ k, 0 < k → k ≤ s.length → (adv sb)^[k] p ≠ startBlock) (fuel : ℕ) :
    jbdIterateLogLoop (collectLog log) sb action startBlock (fuel + s.length) p id info
      = jbdIterateLogLoop (collectLog log) sb action startBlock fuel ((adv sb)^[s.length] p) id
          (seeRevokes action id lbas s.length info) := by
  induction h generalizing p info with
  | nil => rw [List.length_nil, seeRevokes_nil]; rfl
  | @cons chunk d lbas stream hd _ ih =>
      rw [onLog_cons] at hlog
      obtain ⟨hhead, hrest⟩ := hlog
      rw [List.length_cons] at hstart ⊢
      have hblock : jbdProcessBlock (collectLog log) sb action (log p) p id info
          = ⟨none, false, p, id, seeRevokes action id chunk 1 info⟩ :=
        jbdProcessBlock_revoke (hhead.symm ▸ hd) hrc
      have hpass' : InPass action id (seeRevokes action id chunk 1 info) := by
        unfold InPass
        rw [seeRevokes_lastTransId]
        exact hpass
      rw [← Nat.add_assoc, jbdIterateLogLoop_step hfirst hp hpass (hhead.symm ▸ hd.header) hblock
          (hstart 1 (by omega) (by omega)),
        ih hrest hp.next hpass' ((seeRevokes_rc _ _ _ _ _).trans hrc)
          (fun k hpos hk => by
            rw [← Function.iterate_succ_apply]
            exact hstart (k + 1) (by omega) (by omega)),
        seeRevokes_append, Function.iterate_succ_apply, Nat.add_comm 1]

/-- The state of recovery after a pass has seen a whole transaction with `n` revoke blocks. -/
def seeTrans (action : Action) (id : ℕ) (blocks : List (ℕ × Buf bs)) (lbas : List ℕ) (n : ℕ)
    (info : RecoverInfo (List (ℕ × Buf bs))) : RecoverInfo (List (ℕ × Buf bs)) :=
  let info := seeRevokes action id lbas n (seeBlocks action blocks info)
  if action = .scan then { info with transCnt := info.transCnt + 1 } else info

/-- **Reading a transaction**: a pass that reaches the run of a transaction comes out behind it,
    expecting the next id, having seen its blocks and revokes and nothing else. -/
theorem jbdIterateLogLoop_trans {blocks : List (ℕ × Buf bs)} {lbas : List ℕ} {s : List (Buf bs)}
    (hfirst : 0 < sb.first) (h : TransStream sb id blocks lbas s) (hlog : OnLog sb log p s)
    (hp : InLog sb p)
    (hpass : InPass action id info) (hroot : ∀ w ∈ blocks, info.revokeRoot w.1 = none)
    (hrc : info.rc = none)
    (hstart : ∀ k, 0 < k → k ≤ s.length → (adv sb)^[k] p ≠ startBlock) :
    ∃ n ≤ s.length, ∃ m, (m = 0 → lbas = []) ∧ ∀ fuel,
      jbdIterateLogLoop (collectLog log) sb action startBlock (fuel + n) p id info
        = jbdIterateLogLoop (collectLog log) sb action startBlock fuel ((adv sb)^[s.length] p)
            (nextTransId id) (seeTrans action id blocks lbas m info) := by
  obtain ⟨s₁, s₂, c, hdesc, hrevoke, hcommit, rfl⟩ := h
  rw [onLog_append, onLog_append, onLog_cons, List.length_append] at hlog
  obtain ⟨⟨hlog₁, hlog₂⟩, hlog₃, -⟩ := hlog
  have hlen : (s₁ ++ s₂ ++ [c]).length = s₁.length + s₂.length + 1 := by simp [Nat.add_assoc]
  rw [hlen] at hstart ⊢
  obtain ⟨n, hn, hloop₁⟩ := jbdIterateLogLoop_descStream hfirst hdesc hlog₁ hp hpass hroot hrc
    fun k hpos hk => hstart k hpos (by omega)
  have hp₂ : InLog sb ((adv sb)^[s₁.length] p) := hp.iterate _
  have hpass₂ : InPass action id (seeBlocks action blocks info) := by
    unfold InPass
    rw [seeBlocks_lastTransId]
    exact hpass
  have hloop₂ := jbdIterateLogLoop_revokeStream hfirst hrevoke hlog₂ hp₂ hpass₂
    ((seeBlocks_rc _ _ _).trans hrc) fun k hpos hk => by
      rw [← Function.iterate_add_apply]
      exact hstart _ (by omega) (by omega)
  rw [← Function.iterate_add_apply, Nat.add_comm s₂.length] at hloop₂
  have hp₃ : InLog sb ((adv sb)^[s₁.length + s₂.length] p) := hp.iterate _
  have hpass₃ : InPass action id
      (seeRevokes action id lbas s₂.length (seeBlocks action blocks info)) := by
    unfold InPass
    rw [seeRevokes_lastTransId]
    exact hpass₂
  have hblock₃ : jbdProcessBlock (collectLog log) sb action
      (log ((adv sb)^[s₁.length + s₂.length] p)) ((adv sb)^[s₁.length + s₂.length] p) id
      (seeRevokes action id lbas s₂.length (seeBlocks action blocks info))
      = ⟨none, false, (adv sb)^[s₁.length + s₂.length] p, nextTransId id,
          seeTrans action id blocks lbas s₂.length info⟩ :=
    jbdProcessBlock_commit (hlog₃.symm ▸ hcommit)
  have hnext : adv sb ((adv sb)^[s₁.length + s₂.length] p) ≠ startBlock := by
    rw [← Function.iterate_succ_apply' (adv sb)]
    exact hstart _ (by omega) (by omega)
  have hloop₃ := jbdIterateLogLoop_step hfirst hp₃ hpass₃ (hlog₃.symm ▸ hcommit.header) hblock₃
    hnext
  rw [← Function.iterate_succ_apply' (adv sb)] at hloop₃
  refine ⟨n + s₂.length + 1, by omega, s₂.length, ?_, fun fuel => ?_⟩
  · intro hzero
    obtain rfl := List.length_eq_zero_iff.mp hzero
    exact hrevoke.eq_nil
  · calc jbdIterateLogLoop (collectLog log) sb action startBlock (fuel + (n + s₂.length + 1)) p id
          info
        = jbdIterateLogLoop (collectLog log) sb action startBlock ((fuel + 1) + s₂.length)
            ((adv sb)^[s₁.length] p) id (seeBlocks action blocks info) := by
          rw [← hloop₁]
          congr 1
          omega
      _ = _ := by rw [hloop₂, hloop₃]

/-! ## The round trip -/

/-- The log ends behind a transaction: the next block is no record of transaction `id`. -/
def LogEndsAt (log : ℕ → Buf bs) (p id : ℕ) : Prop :=
  get32 (log p) 0 ≠ JBD_MAGIC_NUMBER ∨ get32 (log p) 8 ≠ id

/-- A pass that is past its last transaction stops. -/
theorem jbdIterateLogLoop_past (hpast : action ≠ .scan ∧ transIdDiff id info.lastTransId > 0)
    (fuel : ℕ) :
    jbdIterateLogLoop (collectLog log) sb action startBlock (fuel + 1) p id info
      = some ⟨none, id, info⟩ := by
  rw [jbdIterateLogLoop, if_pos hpast]

/-- The scan stops where the log ends. -/
theorem jbdIterateLogLoop_end (hfirst : 0 < sb.first) (hp : InLog sb p)
    (hend : LogEndsAt log p id) (fuel : ℕ) :
    jbdIterateLogLoop (collectLog log) sb .scan startBlock (fuel + 1) p id info
      = some ⟨none, id, info⟩ := by
  have hget : (collectLog log).getHeader .scan p info.env = (.ok (log p), info.env) := by
    simp [collectLog, inLog_ne_zero hfirst hp]
  rw [jbdIterateLogLoop, if_neg (by simp), hget]
  by_cases hmagic : get32 (log p) 0 = JBD_MAGIC_NUMBER
  · have hseq : get32 (log p) 8 ≠ id := hend.resolve_left (not_not.mpr hmagic)
    simp [hmagic, hseq]
  · simp [hmagic]

theorem lastTransId_of_next {id : ℕ} (hid : id < 2 ^ 32) :
    (if transIdDiff (nextTransId id) id > 0 then (nextTransId id + (2 ^ 32 - 1)) % 2 ^ 32
      else nextTransId id) = id := by
  rw [transIdDiff_next, if_pos (by decide)]
  unfold nextTransId
  omega

theorem seeTrans_lastTransId (action : Action) (id : ℕ) (blocks : List (ℕ × Buf bs))
    (lbas : List ℕ) (n : ℕ) (info : RecoverInfo (List (ℕ × Buf bs))) :
    (seeTrans action id blocks lbas n info).lastTransId = info.lastTransId := by
  cases action <;> rfl

section OneTransaction

variable {blocks : List (ℕ × Buf bs)} {lbas : List ℕ} {s : List (Buf bs)} {start fuel : ℕ}

/-- A log that holds one transaction is shorter than a round, so that no pass meets its own start
    inside it. -/
theorem iterate_ne_start (hp : InLog sb start) (hlen : s.length < logSize sb) :
    ∀ k, 0 < k → k ≤ s.length → (adv sb)^[k] start ≠ start := fun k hpos hk =>
  (Circular.iterate_next_ne hp hpos (by unfold logSize at hlen; omega)).symm

/-- The revoke and the recovery pass over a log that holds one transaction. -/
theorem jbdIterateLog_pass (hfirst : 0 < sb.first) (h : TransStream sb id blocks lbas s)
    (hlog : OnLog sb log start s)
    (hp : InLog sb start) (hlen : s.length < logSize sb) (hfuel : logSize sb ≤ fuel)
    (haction : action ≠ .scan) (hlast : info.lastTransId = id) (hcnt : info.transCnt ≠ 0)
    (hroot : info.revokeRoot = fun _ => none) (hrc : info.rc = none) :
    ∃ m, jbdIterateLog (collectLog log) sb ⟨start, id⟩ action fuel info
      = some (none, seeTrans action id blocks lbas m info) := by
  have hpass : InPass action id info := Or.inr (by rw [hlast, transIdDiff_self])
  obtain ⟨n, hn, m, _, hloop⟩ := jbdIterateLogLoop_trans hfirst h hlog hp hpass
    (fun w _ => by rw [hroot]) hrc (iterate_ne_start hp hlen)
  obtain ⟨f, rfl⟩ : ∃ f, fuel = f + 1 + n := ⟨fuel - 1 - n, by omega⟩
  have hpast : transIdDiff (nextTransId id) (seeTrans action id blocks lbas m info).lastTransId > 0
      := by
    rw [seeTrans_lastTransId, hlast, transIdDiff_next]
    decide
  refine ⟨m, ?_⟩
  unfold jbdIterateLog
  rw [if_neg (by simp [hcnt])]
  dsimp only
  rw [if_neg haction, hloop, jbdIterateLogLoop_past ⟨haction, hpast⟩]
  simp [haction]

/-- The scan of a log that ends behind one transaction. -/
theorem jbdIterateLog_scan (hfirst : 0 < sb.first) (h : TransStream sb id blocks lbas s)
    (hlog : OnLog sb log start s)
    (hp : InLog sb start) (hlen : s.length < logSize sb) (hfuel : logSize sb ≤ fuel)
    (hid : id < 2 ^ 32) (hend : LogEndsAt log ((adv sb)^[s.length] start) (nextTransId id))
    (hroot : info.revokeRoot = fun _ => none) (hrc : info.rc = none) :
    ∃ info', jbdIterateLog (collectLog log) sb ⟨start, id⟩ .scan fuel info = some (none, info') ∧
      info'.startTransId = id ∧ info'.lastTransId = id ∧ info'.transCnt = 1 ∧
      (lbas ≠ [] → info'.revokeBlockCnt ≠ 0) := by
  have hpass : InPass .scan id { info with transCnt := 0, revokeBlockCnt := 0 } := Or.inl rfl
  obtain ⟨n, hn, m, hm, hloop⟩ := jbdIterateLogLoop_trans hfirst h hlog hp hpass
    (fun w _ => by rw [hroot]) hrc (iterate_ne_start hp hlen)
  obtain ⟨f, rfl⟩ : ∃ f, fuel = f + 1 + n := ⟨fuel - 1 - n, by omega⟩
  have hbehind : InLog sb ((adv sb)^[s.length] start) := hp.iterate _
  unfold jbdIterateLog
  rw [if_neg (by simp)]
  dsimp only
  rw [if_pos rfl, hloop, jbdIterateLogLoop_end hfirst hbehind hend]
  simp only [and_self, if_true]
  refine ⟨_, rfl, rfl, lastTransId_of_next hid, rfl, ?_⟩
  intro hrevs hzero
  exact hrevs (hm (by simpa [seeTrans, seeRevokes, seeBlocks] using hzero))

end OneTransaction

variable {σ : Type} {cp : Checkpoint sb σ} {env : CommitEnv bs}

/-- **The log writer and the log reader agree.** After a successful commit, with the superblock
    naming the block the transaction started at and its id: the recovery pass replays exactly the
    transaction's blocks with their original contents, the revoke pass builds exactly its revoke
    set under its id, and the scan, when nothing of the next transaction follows, accepts the
    transaction as the last one and sees a revoke block if there are revokes. -/
theorem jbdIterateLog_writeTrans {trans : JbdTrans bs} {st st' : CommitState bs σ}
    (hid : trans.transId < 2 ^ 32) (hcnt : trans.dataCnt = trans.bufQueue.length)
    (hblocks : ∀ b ∈ trans.bufQueue, FitsTag sb b.lba)
    (hlbas : ∀ lba ∈ trans.revokeRoot, FitsTag sb lba) (hstart : CommitStart cp st)
    (hw : writeTrans cp env trans st = .ok st') (info : RecoverInfo (List (ℕ × Buf bs)))
    (hroot : info.revokeRoot = fun _ => none) (hrc : info.rc = none) (fuel : ℕ)
    (hfuel : logSize sb ≤ fuel) :
    (info.lastTransId = trans.transId → info.transCnt ≠ 0 →
      ∃ info', jbdIterateLog (collectLog st'.log) sb ⟨st.journal.last, trans.transId⟩ .recover fuel
          info = some (none, info') ∧
        info'.env = info.env ++ loggedBlocks trans.bufQueue) ∧
    (info.lastTransId = trans.transId → info.transCnt ≠ 0 →
      ∃ info', jbdIterateLog (collectLog st'.log) sb ⟨st.journal.last, trans.transId⟩ .revoke fuel
          info = some (none, info') ∧
        info'.revokeRoot
          = fun lba => if lba ∈ trans.revokeRoot then some trans.transId else none) ∧
    (LogEndsAt st'.log st'.journal.last (nextTransId trans.transId) →
      ∃ info', jbdIterateLog (collectLog st'.log) sb ⟨st.journal.last, trans.transId⟩ .scan fuel
          info = some (none, info') ∧
        info'.startTransId = trans.transId ∧ info'.lastTransId = trans.transId ∧
        info'.transCnt = 1 ∧ (trans.revokeRoot ≠ [] → info'.revokeBlockCnt ≠ 0)) ∧
    (loggedBlocks trans.bufQueue ≠ [] ∨ trans.revokeRoot ≠ [] →
      st'.startIblock = st.journal.last) := by
  obtain ⟨s, hs, hlog, hlen, hlast, hbegun⟩ :=
    writeTrans_spec hid hcnt hblocks hlbas hstart hw
  refine ⟨fun hid' hne => ?_, fun hid' hne => ?_, fun hend => ?_, fun hsome => (hbegun hsome).1⟩
  · obtain ⟨m, hpass⟩ := jbdIterateLog_pass hstart.first_pos hs hlog hstart.last hlen hfuel
      (show Action.recover ≠ .scan by decide) hid' hne hroot hrc
    exact ⟨_, hpass, rfl⟩
  · obtain ⟨m, hpass⟩ := jbdIterateLog_pass hstart.first_pos hs hlog hstart.last hlen hfuel
      (show Action.revoke ≠ .scan by decide) hid' hne hroot hrc
    refine ⟨_, hpass, ?_⟩
    calc _ = revokeAll trans.transId trans.revokeRoot info.revokeRoot := rfl
      _ = _ := by rw [hroot]; rfl
  · rw [hlast] at hend
    exact jbdIterateLog_scan hstart.first_pos hs hlog hstart.last hlen hfuel hid hend hroot hrc

/-- A journal of 16 blocks of 1 KiB with 64-bit block numbers and version 3 checksums. -/
def smallSb : JbdSb 1024 where
  blocktype := JBD_SUPERBLOCK_V2
  maxlen := 16
  first := 1
  featureIncompat := fun k => k = JBD_FEATURE_INCOMPAT_64BIT ∨ k = JBD_FEATURE_INCOMPAT_CSUM_V3
  uuid := zeros UUID_SIZE
  verified := verified_v2
  first_lt := by decide
  block_size := least_block
  block_size_lt := least_block_lt

/-- Nothing to checkpoint: the tail stays where it is. -/
def idleCheckpoint (sb : JbdSb bs) (p : ℕ) : Checkpoint sb Unit where
  purge := fun start _ => (start, ())
  writeSb := fun _ => (true, ())
  committedEnd := fun _ => p
  purge_inLog := fun _ _ h => h
  purge_forward := fun start _ h => by
    have hself : Circular.dist sb.first sb.maxlen start start = 0 := by
      rw [Circular.dist, Nat.add_sub_cancel_left, Nat.mod_self]
    rw [hself]
    exact Nat.zero_le _
  committedEnd_purge := fun _ _ => rfl
  committedEnd_writeSb := fun _ => rfl

/-- A journal whose head is two blocks before the end of the log, and nothing in it. -/
def smallStart : CommitState 1024 Unit where
  journal := ⟨14, 14, 14, ()⟩
  log := fun _ => zeros 1024
  wb := []
  startIblock := 0
  allocBlocks := 0

/-- A transaction with a block that has to be escaped, past the 32-bit range, and a revoke. -/
def smallTrans : JbdTrans 1024 where
  transId := 2 ^ 32 - 1
  dataCnt := 1
  bufQueue := [⟨2 ^ 32 + 5, set32 (zeros 1024) 0 JBD_MAGIC_NUMBER, true⟩]
  revokeRoot := [9]

theorem jbdIterateLog_writeTrans_small :
    ∃ st', writeTrans (idleCheckpoint smallSb 14) ⟨fun _ => zeros 1024, some 4⟩ smallTrans
        smallStart = .ok st' ∧
      ∃ info', jbdIterateLog (collectLog st'.log) smallSb ⟨14, 2 ^ 32 - 1⟩ .recover 15
          ⟨0, 2 ^ 32 - 1, 0, 1, 0, 0, fun _ => none, none, []⟩ = some (none, info') ∧
        info'.env = loggedBlocks smallTrans.bufQueue := by
  have hok : (writeTrans (idleCheckpoint smallSb 14) ⟨fun _ => zeros 1024, some 4⟩ smallTrans
      smallStart).toBool = true := by decide +kernel
  cases hw : writeTrans (idleCheckpoint smallSb 14) ⟨fun _ => zeros 1024, some 4⟩ smallTrans
      smallStart with
  | error e => rw [hw] at hok; cases hok
  | ok st' =>
      refine ⟨st', rfl, ?_⟩
      exact (jbdIterateLog_writeTrans (by decide) rfl (by decide) (by decide)
        ⟨by decide, by decide, by decide, rfl, rfl, rfl, rfl⟩ hw
        ⟨0, 2 ^ 32 - 1, 0, 1, 0, 0, fun _ => none, none, []⟩ rfl rfl 15 (by decide)).1 rfl
        (by decide)

end Jbd
