import OpenExt4.Journal.LogRecords

set_option autoImplicit false

/-! # The three passes

For any access that serves a log: the scan counts the committed transactions, the revoke pass finds
for each block the last of them that revokes it, and the recovery pass replays what is not
revoked. -/

namespace Jbd

open Bytes RedoLog

variable {bs : ℕ} {σ : Type}
variable {io : LogAccess bs σ} {sb : JbdSb bs} {log : ℕ → Buf bs} {Inv : σ → Prop}
variable {touched watched : ℕ → Prop} {shown : σ → ℕ → Buf bs} {action : Action}
variable {seq n i p id : ℕ} {r : Record bs} {rs recs : List (Record bs)} {info : RecoverInfo σ}
variable {root final : ℕ → Option ℕ} {dev goal : ℕ → Buf bs}

/-! ## One record -/

theorem recordAt_cases (h : recordAt sb log p id = some r) :
    (get32 (log p) 4 = JBD_DESCRIPTOR_BLOCK ∧ jbdVerifyMetaCsum sb (log p) = true ∧
      r = .blocks (images sb log p (descriptorTags sb (log p)))) ∨
    (get32 (log p) 4 = JBD_COMMIT_BLOCK ∧ jbdVerifyCommitCsum sb (log p) = true ∧ r = .commit) ∨
    (get32 (log p) 4 = JBD_REVOKE_BLOCK ∧ jbdVerifyMetaCsum sb (log p) = true ∧
      r = .revokes (revokeEntries sb (log p))) := by
  unfold recordAt at h
  dsimp only at h
  split at h
  · cases h
  split at h
  · next htype =>
      split at h
      · next hcsum => exact .inl ⟨htype, hcsum, (Option.some.inj h).symm⟩
      · cases h
  split at h
  · next htype =>
      split at h
      · next hcsum => exact .inr (.inl ⟨htype, hcsum, (Option.some.inj h).symm⟩)
      · cases h
  split at h
  · next htype =>
      split at h
      · next hcsum => exact .inr (.inr ⟨htype, hcsum, (Option.some.inj h).symm⟩)
      · cases h
  · cases h

theorem wrap_iterate (sb : JbdSb bs) (k p : ℕ) :
    wrap sb ((adv sb)^[k] p + 1) = (adv sb)^[k + 1] p := by
  rw [wrap_succ, Function.iterate_succ_apply']

theorem jbdProcessBlock_commitBlock (htype : get32 (log p) 4 = JBD_COMMIT_BLOCK)
    (hcsum : jbdVerifyCommitCsum sb (log p) = true) :
    jbdProcessBlock io sb action (log p) p id info =
      ⟨none, false, p, nextTransId id,
        if action = .scan then { info with transCnt := info.transCnt + 1 } else info⟩ := by
  unfold jbdProcessBlock
  dsimp only
  rw [if_neg (by rw [htype]; decide), if_pos htype, hcsum]
  rfl

theorem jbdProcessBlock_descBlock (htype : get32 (log p) 4 = JBD_DESCRIPTOR_BLOCK)
    (hcsum : jbdVerifyMetaCsum sb (log p) = true) (haction : action ≠ .recover) :
    jbdProcessBlock io sb action (log p) p id info =
      ⟨none, false, (adv sb)^[(descriptorTags sb (log p)).length] p, id, info⟩ := by
  unfold jbdProcessBlock
  dsimp only
  rw [if_pos htype, hcsum, Bool.not_true, if_neg Bool.false_ne_true, if_neg haction,
    jbdIterateBlockTable_eq_foldl, foldl_jbdDisplayBlockTags]

theorem jbdProcessBlock_descBlock_recover (htype : get32 (log p) 4 = JBD_DESCRIPTOR_BLOCK)
    (hcsum : jbdVerifyMetaCsum sb (log p) = true) {q : ℕ} {info' : RecoverInfo σ}
    (htags : (descriptorTags sb (log p)).foldl
      (fun st t => jbdReplayBlockTags io sb id t st) (p, info) = (q, info')) :
    jbdProcessBlock io sb .recover (log p) p id info =
      ⟨info'.rc, info'.rc.isSome, q, id, info'⟩ := by
  unfold jbdProcessBlock
  dsimp only
  rw [if_pos htype, hcsum, Bool.not_true, if_neg Bool.false_ne_true, if_pos rfl,
    jbdIterateBlockTable_eq_foldl, htags]

theorem jbdProcessBlock_revokeBlock (htype : get32 (log p) 4 = JBD_REVOKE_BLOCK)
    (hcsum : jbdVerifyMetaCsum sb (log p) = true) :
    jbdProcessBlock io sb action (log p) p id info =
      if action = .scan then
        ⟨none, false, p, id, { info with revokeBlockCnt := info.revokeBlockCnt + 1 }⟩
      else if action = .revoke then
        let info := jbdBuildRevokeTree io sb (log p) { info with thisTransId := id }
        ⟨info.rc, info.rc.isSome, p, id, info⟩
      else ⟨none, false, p, id, info⟩ := by
  unfold jbdProcessBlock
  dsimp only
  rw [if_neg (by rw [htype]; decide), if_neg (by rw [htype]; decide), if_pos htype, hcsum]
  rfl

theorem span_blocks (p : ℕ) (tags : List TagInfo) :
    (Record.blocks (images sb log p tags)).span = tags.length + 1 := by
  rw [Record.span, images_length]

/-! ## The scan -/

/-- Is it a revoke block? -/
def Record.isRevokes : Record bs → Bool
  | .revokes _ => true
  | _ => false

/-- The number of revoke blocks. -/
def revokeBlocks (rs : List (Record bs)) : ℕ := rs.countP Record.isRevokes

/-- The state of the scan, in front of transaction `i`. -/
structure Scanning (shown : σ → ℕ → Buf bs) (dev : ℕ → Buf bs) (n k i : ℕ)
    (rest : List (Record bs)) (info : RecoverInfo σ) : Prop where
  commits : i + commits rest = n
  transCnt : info.transCnt = i
  revokeBlockCnt : info.revokeBlockCnt + revokeBlocks rest = k
  revokeRoot : info.revokeRoot = fun _ => none
  rc : info.rc = none
  shown : shown info.env = dev

theorem scan_step {k : ℕ} (hJ : Scanning shown dev n k i (r :: rs) info) (hinv : Inv info.env)
    (hrec : recordAt sb log p (idOf seq i) = some r) :
    StepOk sb seq Inv (Scanning shown dev n k) p i r rs
      (jbdProcessBlock io sb .scan (log p) p (idOf seq i) info) := by
  have hcommits := (commits_cons r rs i).trans hJ.commits
  have hcount := hJ.revokeBlockCnt
  rcases recordAt_cases hrec with ⟨htype, hcsum, rfl⟩ | ⟨htype, hcsum, rfl⟩ | ⟨htype, hcsum, rfl⟩
  · rw [jbdProcessBlock_descBlock htype hcsum (by decide)]
    refine ⟨?_, rfl, hinv, fun _ => rfl, fun h => absurd rfl h, fun _ => ?_⟩
    · rw [wrap_iterate, span_blocks]
    · exact ⟨hcommits, hJ.transCnt, hcount, hJ.revokeRoot, hJ.rc, hJ.shown⟩
  · rw [jbdProcessBlock_commitBlock htype hcsum, if_pos rfl, nextTransId_idOf]
    refine ⟨wrap_iterate sb 0 p, rfl, hinv, fun _ => rfl, fun h => absurd rfl h, fun _ => ?_⟩
    exact ⟨hcommits, congrArg (· + 1) hJ.transCnt, hcount, hJ.revokeRoot, hJ.rc, hJ.shown⟩
  · rw [jbdProcessBlock_revokeBlock htype hcsum, if_pos rfl]
    refine ⟨wrap_iterate sb 0 p, rfl, hinv, fun _ => rfl, fun h => absurd rfl h, fun _ => ?_⟩
    refine ⟨hcommits, hJ.transCnt, ?_, hJ.revokeRoot, hJ.rc, hJ.shown⟩
    rw [revokeBlocks, List.countP_cons_of_pos rfl] at hcount
    rw [revokeBlocks]
    dsimp only
    omega

/-- What the later passes have from the scan of a log with `n` transactions. -/
structure Scanned (seq n : ℕ) (info : RecoverInfo σ) : Prop where
  transCnt : info.transCnt = n
  lastTransId : 0 < n → info.lastTransId = idOf seq (n - 1)
  rc : info.rc = none

/-- A scan that does not fail has counted the transactions of the log. -/
theorem scan_pass {tail : JbdTail} {fuel : ℕ}
    (hserves : Serves io log Inv touched watched shown) (hseq : tail.sequence < 2 ^ 32)
    (hrecs : records sb log tail.start tail.sequence fuel = some recs)
    (hn : commits recs < 2 ^ 31) (hinv : Inv info.env)
    (hroot : info.revokeRoot = fun _ => none) (hrc : info.rc = none) :
    ∃ r info', jbdIterateLog io sb tail .scan fuel info = some (r, info') ∧ Inv info'.env ∧
      (r = none → Scanned tail.sequence (commits recs) info' ∧
        info'.revokeBlockCnt = revokeBlocks recs ∧ (info'.revokeRoot = fun _ => none) ∧
          shown info'.env = shown info.env) := by
  have hstart : Scanning shown (shown info.env) (commits recs) (revokeBlocks recs) 0 recs
      { info with transCnt := 0, revokeBlockCnt := 0 } :=
    ⟨Nat.zero_add _, rfl, Nat.zero_add _, hroot, hrc, rfl⟩
  obtain ⟨res, hres, hinv', hends⟩ := @jbdIterateLogLoop_walk bs σ io sb log Inv touched watched
    shown .scan (Scanning shown (shown info.env) (commits recs) (revokeBlocks recs)) tail.start
    tail.sequence hserves
    (fun i rs info env hJ _ _ hsame => ⟨hJ.commits, hJ.transCnt, hJ.revokeBlockCnt, hJ.revokeRoot,
      hJ.rc, hsame.trans hJ.shown⟩)
    (fun i r rs p info hJ hinv hrec _ => scan_step hJ hinv hrec)
    fuel tail.start 0 recs { info with transCnt := 0, revokeBlockCnt := 0 } hrecs hstart hinv
  rw [idOf_zero hseq] at hres
  rw [jbdIterateLog, if_neg (by simp), if_pos rfl]
  dsimp only
  rw [hres]
  dsimp only
  by_cases hr : res.r = none
  · rw [if_pos ⟨hr, rfl⟩]
    obtain ⟨j, rest, hJ, hid, hrest⟩ := hends hr
    obtain rfl : rest = [] := hrest.resolve_right fun hpast => hpast.1 rfl
    have hj : j = commits recs := hJ.commits
    refine ⟨_, _, rfl, hinv', fun _ => ⟨⟨hJ.transCnt.trans hj, ?_, hJ.rc⟩,
      hJ.revokeBlockCnt, hJ.revokeRoot, hJ.shown⟩⟩
    intro hpos
    dsimp only
    rw [hid, hj]
    -- the scan ended in front of the id behind the last one
    have hdiff := @transIdDiff_idOf tail.sequence (commits recs) 0 hn (by decide)
    rw [idOf_zero hseq] at hdiff
    rw [hdiff, if_pos (by omega)]
    unfold idOf
    omega
  · rw [if_neg fun h => hr h.1]
    exact ⟨_, _, rfl, hinv', fun h => absurd h hr⟩

/-! ## The revoke pass -/

/-- A later pass over a log with transactions is the loop, and does not look at how it ended. -/
theorem jbdIterateLog_later {tail : JbdTail} {fuel : ℕ} {res : IterateResult σ}
    (haction : action ≠ .scan) (hcnt : info.transCnt ≠ 0)
    (hres : jbdIterateLogLoop io sb action tail.start fuel tail.start tail.sequence info =
      some res) :
    jbdIterateLog io sb tail action fuel info = some (res.r, res.info) := by
  rw [jbdIterateLog, if_neg fun h => hcnt h.2, if_neg haction]
  dsimp only
  rw [hres]
  dsimp only
  rw [if_neg fun h => haction h.2]

/-- A pass that is not past its last transaction has a commit ahead. -/
theorem transactions_ne_nil (hscan : Scanned seq n info) (hpos : 0 < n) (hn : n < 2 ^ 31)
    (hcommits : i + commits rs = n) (haction : action ≠ .scan)
    (hpast : ¬ Past action (idOf seq i) info) : transactions rs ≠ [] := by
  intro hnil
  have hi : i = n := by rw [commits, hnil] at hcommits; exact hcommits
  refine hpast ⟨haction, ?_⟩
  rw [hscan.lastTransId hpos, transIdDiff_idOf (by omega) (by omega)]
  omega

/-- A pass that has ended has no commit ahead. -/
theorem no_transactions {j : ℕ} {rest : List (Record bs)} (hscan : Scanned seq n info)
    (hpos : 0 < n) (hn : n < 2 ^ 31) (hcommits : j + commits rest = n) (hid : id = idOf seq j)
    (hrest : rest = [] ∨ Past action id info) : transactions rest = [] := by
  by_contra hne
  have hlen : 0 < commits rest := List.length_pos_iff.mpr hne
  rcases hrest with rfl | hpast
  · exact hne rfl
  · rw [Past, hid, hscan.lastTransId hpos, transIdDiff_idOf (by omega) (by omega)] at hpast
    omega

/-- The ids of the last revocations. -/
def rootIds (seq : ℕ) (root : ℕ → Option ℕ) : ℕ → Option ℕ := fun b => (root b).map (idOf seq)

theorem revokeAll_rootIds (seq i : ℕ) (lbas : List ℕ) (root : ℕ → Option ℕ) :
    revokeAll (idOf seq i) lbas (rootIds seq root) =
      rootIds seq fun b => if b ∈ lbas then some i else root b := by
  funext b
  unfold revokeAll rootIds
  by_cases hb : b ∈ lbas
  · simp only [hb, if_true, Option.map_some]
  · simp only [hb, if_false]

theorem lastRevoke_blocks (ws : List (ℕ × Buf bs)) (rs : List (Record bs)) :
    lastRevoke i (transactions (.blocks ws :: rs)) root = lastRevoke i (transactions rs) root := by
  rw [transactions]
  cases transactions rs <;> rfl

theorem lastRevoke_revokes {lbas : List ℕ} (hne : transactions rs ≠ []) :
    lastRevoke i (transactions (.revokes lbas :: rs)) root =
      lastRevoke i (transactions rs) fun b => if b ∈ lbas then some i else root b := by
  rw [transactions]
  obtain ⟨t, ts, hts⟩ := List.exists_cons_of_ne_nil hne
  rw [hts, List.modifyHead_cons, lastRevoke, lastRevoke]
  congr 1
  funext b
  by_cases ht : b ∈ t.revokes
  · rw [if_pos (List.mem_append_right _ ht), if_pos ht]
  · rw [if_neg ht]
    by_cases hl : b ∈ lbas
    · rw [if_pos (List.mem_append_left _ hl), if_pos hl]
    · rw [if_neg (by rw [List.mem_append]; exact not_or.mpr ⟨hl, ht⟩), if_neg hl]

/-- Entering the blocks of a revoke block. -/
theorem foldl_jbdAddRevoke (hserves : Serves io log Inv touched watched shown) (lbas : List ℕ)
    (info : RecoverInfo σ) (hinv : Inv info.env) :
    ∃ info', lbas.foldl (jbdAddRevokeBlockTags io) info = info' ∧ Inv info'.env ∧
      shown info'.env = shown info.env ∧ info'.thisTransId = info.thisTransId ∧
      info'.transCnt = info.transCnt ∧ info'.lastTransId = info.lastTransId ∧
      (info'.rc = none → info.rc = none ∧
        info'.revokeRoot = revokeAll info.thisTransId lbas info.revokeRoot) := by
  induction lbas generalizing info with
  | nil =>
      refine ⟨info, rfl, hinv, rfl, rfl, rfl, rfl, fun hrc => ⟨hrc, ?_⟩⟩
      funext b
      rw [revokeAll, if_neg List.not_mem_nil]
  | cons lba lbas ih =>
      have hroot : revokeAll info.thisTransId lbas
          (Function.update info.revokeRoot lba (some info.thisTransId)) =
            revokeAll info.thisTransId (lba :: lbas) info.revokeRoot := by
        funext b
        unfold revokeAll
        by_cases hb : b ∈ lbas
        · rw [if_pos hb, if_pos (List.mem_cons_of_mem _ hb)]
        · rw [if_neg hb]
          by_cases heq : b = lba
          · rw [heq, Function.update_self, if_pos (List.mem_cons_self ..)]
          · rw [Function.update_of_ne heq, if_neg (by simpa using ⟨heq, hb⟩)]
      rw [List.foldl_cons, jbdAddRevokeBlockTags]
      obtain ⟨hinv', hshown⟩ := hserves.alloc info.env hinv
      -- an entry is renewed in place; a new one needs memory
      cases hold : info.revokeRoot lba with
      | some old =>
          obtain ⟨info', hfold, h₁, h₂, h₃, h₄, h₅, h₆⟩ := ih
            { info with
              revokeRoot := Function.update info.revokeRoot lba (some info.thisTransId) } hinv
          exact ⟨info', hfold, h₁, h₂, h₃, h₄, h₅, fun hrc => ⟨(h₆ hrc).1, (h₆ hrc).2.trans hroot⟩⟩
      | none =>
          rcases hget : io.allocRevokeEntry info.env with ⟨_ | _, env⟩
          · rw [hget] at hinv' hshown
            obtain ⟨info', hfold, h₁, h₂, h₃, h₄, h₅, h₆⟩ :=
              ih { info with rc := some .ENOMEM, env := env } hinv'
            exact ⟨info', hfold, h₁, h₂.trans hshown, h₃, h₄, h₅,
              fun hrc => absurd (h₆ hrc).1 (Option.some_ne_none _)⟩
          · rw [hget] at hinv' hshown
            obtain ⟨info', hfold, h₁, h₂, h₃, h₄, h₅, h₆⟩ := ih
              { info with
                revokeRoot := Function.update info.revokeRoot lba (some info.thisTransId)
                env := env } hinv'
            exact ⟨info', hfold, h₁, h₂.trans hshown, h₃, h₄, h₅,
              fun hrc => ⟨(h₆ hrc).1, (h₆ hrc).2.trans hroot⟩⟩

/-- The state of the revoke pass, in front of transaction `i`. -/
structure GatheringRevokes (seq : ℕ) (shown : σ → ℕ → Buf bs) (dev : ℕ → Buf bs) (n : ℕ)
    (final : ℕ → Option ℕ) (i : ℕ) (rest : List (Record bs)) (info : RecoverInfo σ) : Prop where
  scanned : Scanned seq n info
  commits : i + commits rest = n
  root : ∃ root, info.revokeRoot = rootIds seq root ∧ lastRevoke i (transactions rest) root = final
  shown : shown info.env = dev

theorem revoke_step (hserves : Serves io log Inv touched watched shown) (hpos : 0 < n)
    (hn : n < 2 ^ 31) (hJ : GatheringRevokes seq shown dev n final i (r :: rs) info)
    (hinv : Inv info.env)
    (hrec : recordAt sb log p (idOf seq i) = some r)
    (hpast : ¬ Past .revoke (idOf seq i) info) :
    StepOk sb seq Inv (GatheringRevokes seq shown dev n final) p i r rs
      (jbdProcessBlock io sb .revoke (log p) p (idOf seq i) info) := by
  have hcommits := (commits_cons r rs i).trans hJ.commits
  have hne := transactions_ne_nil hJ.scanned hpos hn hJ.commits (by decide) hpast
  obtain ⟨root, hroot, hfinal⟩ := hJ.root
  rcases recordAt_cases hrec with ⟨htype, hcsum, rfl⟩ | ⟨htype, hcsum, rfl⟩ | ⟨htype, hcsum, rfl⟩
  · rw [jbdProcessBlock_descBlock htype hcsum (by decide)]
    refine ⟨?_, rfl, hinv, fun _ => rfl, fun h => absurd rfl h, fun _ => ?_⟩
    · rw [wrap_iterate, span_blocks]
    · exact ⟨hJ.scanned, hcommits, ⟨root, hroot, (lastRevoke_blocks _ rs).symm.trans hfinal⟩,
        hJ.shown⟩
  · rw [jbdProcessBlock_commitBlock htype hcsum, if_neg (by decide), nextTransId_idOf]
    refine ⟨wrap_iterate sb 0 p, rfl, hinv, fun _ => rfl, fun h => absurd rfl h, fun _ => ?_⟩
    refine ⟨hJ.scanned, hcommits, ⟨root, hroot, ?_⟩, hJ.shown⟩
    simp only [transactions, lastRevoke, List.not_mem_nil, if_false] at hfinal
    exact hfinal
  · rw [jbdProcessBlock_revokeBlock htype hcsum, if_neg (by decide), if_pos rfl]
    obtain ⟨info', hfold, hinv', hshown, _, hcnt, hlast, hrc⟩ := foldl_jbdAddRevoke hserves
      (revokeEntries sb (log p)) { info with thisTransId := idOf seq i } hinv
    rw [jbdBuildRevokeTree, hfold]
    dsimp only at hrc hcnt hlast hshown ⊢
    refine ⟨wrap_iterate sb 0 p, rfl, hinv', fun h => ?_, fun h => ?_, fun h => ?_⟩
    · exact Option.isSome_eq_false_iff.mpr (Option.isNone_iff_eq_none.mpr h)
    · exact Option.isSome_iff_ne_none.mpr h
    · have hroot' := (hrc h).2
      rw [hroot, revokeAll_rootIds] at hroot'
      -- the entries count for the transaction they are in, which gets its commit
      have hrest : transactions rs ≠ [] := by
        intro hnil
        exact hne (by rw [transactions, hnil]; rfl)
      exact ⟨⟨hcnt.trans hJ.scanned.transCnt, fun hp => hlast.trans (hJ.scanned.lastTransId hp), h⟩,
        hcommits, ⟨_, hroot', (lastRevoke_revokes hrest).symm.trans hfinal⟩,
        hshown.trans hJ.shown⟩

/-- A revoke pass that does not fail has the last revocations. -/
theorem revoke_pass {tail : JbdTail} {fuel : ℕ}
    (hserves : Serves io log Inv touched watched shown) (hseq : tail.sequence < 2 ^ 32)
    (hrecs : records sb log tail.start tail.sequence fuel = some recs)
    (hn : commits recs < 2 ^ 31) (hinv : Inv info.env)
    (hscan : Scanned tail.sequence (commits recs) info)
    (hroot : info.revokeRoot = fun _ => none) :
    ∃ r info', jbdIterateLog io sb tail .revoke fuel info = some (r, info') ∧ Inv info'.env ∧
      (r = none → Scanned tail.sequence (commits recs) info' ∧
        info'.revokeRoot =
          rootIds tail.sequence (lastRevoke 0 (transactions recs) fun _ => none) ∧
        shown info'.env = shown info.env) := by
  by_cases hzero : info.transCnt = 0
  · have hnil : transactions recs = [] :=
      List.eq_nil_of_length_eq_zero (hscan.transCnt.symm.trans hzero)
    refine ⟨none, info, ?_, hinv, fun _ => ⟨hscan, ?_, rfl⟩⟩
    · rw [jbdIterateLog, if_pos ⟨by decide, hzero⟩]
    · rw [hroot, hnil]
      rfl
  · have hpos : 0 < commits recs := by rw [← hscan.transCnt]; exact Nat.pos_of_ne_zero hzero
    obtain ⟨res, hres, hinv', hends⟩ := @jbdIterateLogLoop_walk bs σ io sb log Inv touched watched
      shown .revoke (GatheringRevokes tail.sequence shown (shown info.env) (commits recs)
        (lastRevoke 0 (transactions recs) fun _ => none)) tail.start tail.sequence hserves
      (fun i rs info env hJ _ _ hsame =>
        ⟨⟨hJ.scanned.transCnt, hJ.scanned.lastTransId, hJ.scanned.rc⟩, hJ.commits, hJ.root,
          hsame.trans hJ.shown⟩)
      (fun i r rs p info hJ hinv hrec hpast => revoke_step hserves hpos hn hJ hinv hrec hpast)
      fuel tail.start 0 recs info hrecs ⟨hscan, Nat.zero_add _, ⟨fun _ => none, hroot, rfl⟩, rfl⟩
      hinv
    rw [idOf_zero hseq] at hres
    refine ⟨_, _, jbdIterateLog_later (by decide) hzero hres, hinv', fun hr => ?_⟩
    obtain ⟨j, rest, hJ, hid, hrest⟩ := hends hr
    have hnil : transactions rest = [] :=
      no_transactions hJ.scanned hpos hn hJ.commits hid hrest
    obtain ⟨root, hroot', hfinal⟩ := hJ.root
    rw [hnil] at hfinal
    refine ⟨hJ.scanned, ?_, hJ.shown⟩
    rw [hroot', ← hfinal]
    rfl

/-! ## The recovery pass -/

theorem revoked_rootIds (hfinal : ∀ b, ∀ j ∈ final b, j < 2 ^ 31) (hi : i < 2 ^ 31) (b : ℕ) :
    revoked (rootIds seq final) (idOf seq i) b = !decide (Live final i b) := by
  rcases Option.eq_none_or_eq_some (final b) with hb | ⟨j, hb⟩
  · have hlive : Live final i b := by
      intro j hj
      rw [hb] at hj
      cases hj
    rw [revoked, rootIds, hb, decide_eq_true hlive]
    rfl
  · have hj := hfinal b j (by rw [hb]; rfl)
    have hiff : Live final i b ↔ j < i := by
      rw [Live, hb]
      exact ⟨fun h => h j rfl, fun h j' hj' => Option.some.inj hj' ▸ h⟩
    rw [revoked, rootIds, hb, Option.map_some]
    dsimp only
    rw [transIdDiff_idOf hi hj, decide_eq_decide.mpr hiff, ← decide_not]
    exact decide_eq_decide.mpr (by omega)

theorem kept_blocks {ws : List (ℕ × Buf bs)} (hne : transactions rs ≠ []) :
    kept final i (transactions (.blocks ws :: rs)) =
      ws.filter (fun w => Live final i w.1) ++ kept final i (transactions rs) := by
  rw [transactions]
  obtain ⟨t, ts, hts⟩ := List.exists_cons_of_ne_nil hne
  rw [hts, List.modifyHead_cons, kept, kept, List.filter_append, List.append_assoc]

theorem kept_revokes (lbas : List ℕ) (rs : List (Record bs)) :
    kept final i (transactions (.revokes lbas :: rs)) = kept final i (transactions rs) := by
  rw [transactions]
  cases transactions rs <;> rfl

/-- Replaying the blocks of a descriptor block. -/
theorem foldl_jbdReplayBlock (hserves : Serves io log Inv touched watched shown)
    (tags : List TagInfo) (p : ℕ) (info : RecoverInfo σ) (hinv : Inv info.env)
    (htouched : ∀ w ∈ images sb log p tags, revoked info.revokeRoot id w.1 = false →
      touched w.1) :
    ∃ info', tags.foldl (fun st t => jbdReplayBlockTags io sb id t st) (p, info) =
        ((adv sb)^[tags.length] p, info') ∧
      Inv info'.env ∧ info'.transCnt = info.transCnt ∧ info'.lastTransId = info.lastTransId ∧
      info'.revokeRoot = info.revokeRoot ∧
      (info'.rc = none → info.rc = none ∧ ∀ b, watched b → shown info'.env b =
        Writes.apply ((images sb log p tags).filter fun w => !revoked info.revokeRoot id w.1)
          (shown info.env) b) := by
  induction tags generalizing p info with
  | nil => exact ⟨info, rfl, hinv, rfl, rfl, rfl, fun hrc => ⟨hrc, fun _ _ => rfl⟩⟩
  | cons t tags ih =>
      rw [images] at htouched ⊢
      rw [List.foldl_cons, jbdReplayBlockTags]
      dsimp only
      rw [wrap_succ]
      have hhead := htouched _ (List.mem_cons_self ..)
      have htail : ∀ w ∈ images sb log (adv sb p) tags, revoked info.revokeRoot id w.1 = false →
          touched w.1 := fun w hw => htouched w (List.mem_cons_of_mem _ hw)
      -- a copy that is revoked is stepped over without being read
      by_cases hrev : revoked info.revokeRoot id t.block = true
      · rw [if_pos hrev, List.filter_cons_of_neg (by simp [hrev])]
        exact ih _ _ hinv htail
      · rw [if_neg hrev, List.filter_cons_of_pos (by simp [hrev])]
        rw [Bool.not_eq_true] at hrev
        obtain ⟨hinv₁, hshown₁, hdata⟩ := hserves.getData (adv sb p) info.env hinv
        rcases hget : io.getData (adv sb p) info.env with ⟨e | jdata, env⟩
        · rw [hget] at hinv₁ hshown₁
          obtain ⟨info', hfold, h₁, h₂, h₃, h₄, h₅⟩ :=
            ih (adv sb p) { info with rc := some e, env := env } hinv₁ htail
          exact ⟨info', hfold, h₁, h₂, h₃, h₄,
            fun hrc => absurd (h₅ hrc).1 (Option.some_ne_none _)⟩
        · rw [hget] at hinv₁ hshown₁ hdata
          obtain rfl := hdata jdata rfl
          obtain ⟨hinv₂, hshown₂⟩ :=
            hserves.replay t.block (log (adv sb p)) t.isEscape env hinv₁ (hhead hrev)
          obtain ⟨info', hfold, h₁, h₂, h₃, h₄, h₅⟩ := ih (adv sb p)
            { info with
              blocksReplayed := info.blocksReplayed + 1
              rc := (io.replay t.block (log (adv sb p)) t.isEscape env).1.or info.rc
              env := (io.replay t.block (log (adv sb p)) t.isEscape env).2 } hinv₂ htail
          refine ⟨info', hfold, h₁, h₂, h₃, h₄, fun hrc => ?_⟩
          obtain ⟨hor, happly⟩ := h₅ hrc
          obtain ⟨hrep, hrc'⟩ := Option.or_eq_none_iff.mp hor
          refine ⟨hrc', fun b hb => (happly b hb).trans ?_⟩
          rw [Writes.apply_cons]
          exact apply_congr_memory _ ((hshown₂ hrep b hb).trans (by rw [hshown₁]))

/-- The state of the recovery pass, in front of transaction `i`. -/
structure Replaying (seq : ℕ) (touched watched : ℕ → Prop) (shown : σ → ℕ → Buf bs)
    (goal : ℕ → Buf bs) (n : ℕ) (final : ℕ → Option ℕ) (i : ℕ) (rest : List (Record bs))
    (info : RecoverInfo σ) : Prop where
  scanned : Scanned seq n info
  commits : i + commits rest = n
  root : info.revokeRoot = rootIds seq final
  touched : ∀ w ∈ kept final i (transactions rest), touched w.1
  shown : ∀ b, watched b →
    Writes.apply (kept final i (transactions rest)) (shown info.env) b = goal b

theorem recover_step (hserves : Serves io log Inv touched watched shown) (hpos : 0 < n)
    (hn : n < 2 ^ 31) (hlt : ∀ b, ∀ j ∈ final b, j < 2 ^ 31)
    (hJ : Replaying seq touched watched shown goal n final i (r :: rs) info)
    (hinv : Inv info.env) (hrec : recordAt sb log p (idOf seq i) = some r)
    (hpast : ¬ Past .recover (idOf seq i) info) :
    StepOk sb seq Inv (Replaying seq touched watched shown goal n final) p i r rs
      (jbdProcessBlock io sb .recover (log p) p (idOf seq i) info) := by
  have hcommits := (commits_cons r rs i).trans hJ.commits
  have hne := transactions_ne_nil hJ.scanned hpos hn hJ.commits (by decide) hpast
  have hi : i < 2 ^ 31 := by have := hJ.commits; omega
  have htouched := hJ.touched
  have hshown := hJ.shown
  rcases recordAt_cases hrec with ⟨htype, hcsum, rfl⟩ | ⟨htype, hcsum, rfl⟩ | ⟨htype, hcsum, rfl⟩
  · have hrest : transactions rs ≠ [] := by
      intro hnil
      exact hne (by rw [transactions, hnil]; rfl)
    rw [kept_blocks hrest] at htouched hshown
    -- what is replayed is what the log keeps of the record
    have hlive : ∀ w ∈ images sb log p (descriptorTags sb (log p)),
        revoked info.revokeRoot (idOf seq i) w.1 = false → touched w.1 := by
      intro w hw hrev
      rw [hJ.root, revoked_rootIds hlt hi, Bool.not_eq_false'] at hrev
      exact htouched w (List.mem_append_left _ (List.mem_filter.mpr ⟨hw, hrev⟩))
    obtain ⟨info', hfold, hinv', hcnt, hlast, hroot, hrc⟩ :=
      foldl_jbdReplayBlock hserves (descriptorTags sb (log p)) p info hinv hlive
    rw [jbdProcessBlock_descBlock_recover htype hcsum hfold]
    refine ⟨?_, rfl, hinv', fun h => ?_, fun h => ?_, fun h => ?_⟩
    · rw [wrap_iterate, span_blocks]
    · exact Option.isSome_eq_false_iff.mpr (Option.isNone_iff_eq_none.mpr h)
    · exact Option.isSome_iff_ne_none.mpr h
    · obtain ⟨-, happly⟩ := hrc h
      refine ⟨⟨hcnt.trans hJ.scanned.transCnt, fun hp => hlast.trans (hJ.scanned.lastTransId hp),
        h⟩, hcommits, hroot.trans hJ.root,
        fun w hw => htouched w (List.mem_append_right _ hw), fun b hb => ?_⟩
      have hfilter : (fun w : ℕ × Buf bs => !revoked info.revokeRoot (idOf seq i) w.1) =
          fun w => decide (Live final i w.1) := by
        funext w
        rw [hJ.root, revoked_rootIds hlt hi, Bool.not_not]
      rw [hfilter] at happly
      rw [← hshown b hb, Writes.apply_append]
      exact apply_congr_memory _ (happly b hb)
  · rw [jbdProcessBlock_commitBlock htype hcsum, if_neg (by decide), nextTransId_idOf]
    refine ⟨wrap_iterate sb 0 p, rfl, hinv, fun _ => rfl, fun h => absurd rfl h, fun _ => ?_⟩
    rw [transactions, kept, List.filter_nil, List.nil_append] at htouched hshown
    exact ⟨hJ.scanned, hcommits, hJ.root, htouched, hshown⟩
  · rw [jbdProcessBlock_revokeBlock htype hcsum, if_neg (by decide), if_neg (by decide)]
    refine ⟨wrap_iterate sb 0 p, rfl, hinv, fun _ => rfl, fun h => absurd rfl h, fun _ => ?_⟩
    rw [kept_revokes] at htouched hshown
    exact ⟨hJ.scanned, hcommits, hJ.root, htouched, hshown⟩

/-- A recovery pass that does not fail has made the writes that are not revoked. -/
theorem recover_pass {tail : JbdTail} {fuel : ℕ}
    (hserves : Serves io log Inv touched watched shown) (hseq : tail.sequence < 2 ^ 32)
    (hrecs : records sb log tail.start tail.sequence fuel = some recs)
    (hn : commits recs < 2 ^ 31) (hinv : Inv info.env)
    (hscan : Scanned tail.sequence (commits recs) info)
    (hroot : info.revokeRoot =
      rootIds tail.sequence (lastRevoke 0 (transactions recs) fun _ => none))
    (htouched : ∀ w ∈ keptWrites (transactions recs), touched w.1) :
    ∃ r info', jbdIterateLog io sb tail .recover fuel info = some (r, info') ∧ Inv info'.env ∧
      (r = none → ∀ b, watched b → shown info'.env b =
        overlay (redo (transactions recs)) (shown info.env) b) := by
  by_cases hzero : info.transCnt = 0
  · have hnil : transactions recs = [] :=
      List.eq_nil_of_length_eq_zero (hscan.transCnt.symm.trans hzero)
    refine ⟨none, info, ?_, hinv, fun _ b _ => ?_⟩
    · rw [jbdIterateLog, if_pos ⟨by decide, hzero⟩]
    · rw [hnil]
      rfl
  · have hpos : 0 < commits recs := by rw [← hscan.transCnt]; exact Nat.pos_of_ne_zero hzero
    have hlt : ∀ b, ∀ j ∈ lastRevoke 0 (transactions recs) (fun _ => none) b, j < 2 ^ 31 :=
      fun b j hj => lt_trans (lastRevoke_lt hj) hn
    obtain ⟨res, hres, hinv', hends⟩ := @jbdIterateLogLoop_walk bs σ io sb log Inv touched watched
      shown .recover (Replaying tail.sequence touched watched shown
        (overlay (redo (transactions recs)) (shown info.env)) (commits recs)
        (lastRevoke 0 (transactions recs) fun _ => none)) tail.start tail.sequence hserves
      (fun i rs info env hJ _ _ hsame =>
        ⟨⟨hJ.scanned.transCnt, hJ.scanned.lastTransId, hJ.scanned.rc⟩, hJ.commits, hJ.root,
          hJ.touched, fun b hb => by rw [← hJ.shown b hb, ← hsame]⟩)
      (fun i r rs p info hJ hinv hrec hpast => recover_step hserves hpos hn hlt hJ hinv hrec hpast)
      fuel tail.start 0 recs info hrecs
      ⟨hscan, Nat.zero_add _, hroot, htouched, fun b _ => congrFun (apply_keptWrites _ _) b⟩ hinv
    rw [idOf_zero hseq] at hres
    refine ⟨_, _, jbdIterateLog_later (by decide) hzero hres, hinv', fun hr b hb => ?_⟩
    obtain ⟨j, rest, hJ, hid, hrest⟩ := hends hr
    have hnil : transactions rest = [] :=
      no_transactions hJ.scanned hpos hn hJ.commits hid hrest
    have hshown := hJ.shown b hb
    rw [hnil] at hshown
    exact hshown

end Jbd
