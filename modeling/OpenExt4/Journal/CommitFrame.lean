import OpenExt4.Journal.WriterProofs

set_option autoImplicit false

/-! # What a commit leaves alone

A commit writes the blocks it allocates, which are the ones from the head of the log on, and no
others. -/

namespace Jbd

open Bytes

variable {bs : ℕ} {σ : Type} {sb : JbdSb bs} {cp : Checkpoint sb σ} {env : CommitEnv bs}
variable {p id : ℕ} {st st' st'' : CommitState bs σ} {desc desc' desc'' : Option (OpenRecord bs)}
variable {d d' : OpenRecord bs}

/-- The head moves on by `n` blocks, which count as allocated. -/
structure Advances (sb : JbdSb bs) (n : ℕ) (st st' : CommitState bs σ) : Prop where
  last : st'.journal.last = (adv sb)^[n] st.journal.last
  alloc : st'.allocBlocks = st.allocBlocks + n

/-- Nothing waits to be written to `p`. -/
structure Clear (p : ℕ) (desc : Option (OpenRecord bs)) (st : CommitState bs σ) : Prop where
  wb : p ∉ st.wb.map Prod.fst
  desc : ∀ d ∈ desc, d.iblock ≠ p

/-- The commit gets from `st` to `st'` without `p`, unless it allocates it. -/
def Spares (sb : JbdSb bs) (p : ℕ) (desc : Option (OpenRecord bs)) (st : CommitState bs σ)
    (desc' : Option (OpenRecord bs)) (st' : CommitState bs σ) : Prop :=
  ∃ n, Advances sb n st st' ∧
    ((∀ k < n, (adv sb)^[k] st.journal.last ≠ p) → Clear p desc st →
      Clear p desc' st' ∧ st'.log p = st.log p)

theorem Spares.refl (p : ℕ) (desc : Option (OpenRecord bs)) (st : CommitState bs σ) :
    Spares sb p desc st desc st :=
  ⟨0, ⟨rfl, rfl⟩, fun _ h => ⟨h, rfl⟩⟩

theorem Spares.trans (h : Spares sb p desc st desc' st') (h' : Spares sb p desc' st' desc'' st'') :
    Spares sb p desc st desc'' st'' := by
  obtain ⟨n, hn, hlog⟩ := h
  obtain ⟨m, hm, hlog'⟩ := h'
  refine ⟨m + n, ⟨?_, ?_⟩, fun hout hclear => ?_⟩
  · rw [Function.iterate_add_apply, ← hn.last, hm.last]
  · rw [hm.alloc, hn.alloc]
    omega
  · obtain ⟨hclear', hsame⟩ := hlog (fun k hk => hout k (by omega)) hclear
    obtain ⟨hclear'', hsame'⟩ := hlog' (fun k hk => by
      rw [hn.last, ← Function.iterate_add_apply]
      exact hout (k + n) (by omega)) hclear'
    exact ⟨hclear'', hsame'.trans hsame⟩

/-! ## Allocating and writing -/

theorem jbdJournalAllocBlock_last {iblock : ℕ} (ha : jbdJournalAllocBlock cp st = (iblock, st'))
    (hne : iblock ≠ 0) : iblock = st.journal.last ∧ Advances sb 1 st st' ∧ st'.log = st.log ∧
      st'.wb = st.wb := by
  unfold jbdJournalAllocBlock at ha
  dsimp only at ha
  split at ha
  · split at ha
    · exact absurd (Prod.mk.inj ha).1.symm hne
    · obtain ⟨rfl, rfl⟩ := Prod.mk.inj ha
      exact ⟨rfl, ⟨by simp [wrap_succ], rfl⟩, rfl, rfl⟩
  · obtain ⟨rfl, rfl⟩ := Prod.mk.inj ha
    exact ⟨rfl, ⟨by simp [wrap_succ], rfl⟩, rfl, rfl⟩

/-- Opening a record. -/
theorem openRecord_spares {blocktype headerSize : ℕ}
    (ho : openRecord cp env blocktype id headerSize st = .ok (d, st')) :
    Spares sb p none st (some d) st' := by
  unfold openRecord at ho
  rcases ha : jbdJournalAllocBlock cp st with ⟨iblock, st₁⟩
  rw [ha] at ho
  dsimp only at ho
  split at ho
  · cases ho
  · next hne =>
      obtain ⟨rfl, hadv, hlog, hwb⟩ := jbdJournalAllocBlock_last ha hne
      obtain ⟨rfl, rfl⟩ := Prod.mk.inj (Except.ok.inj ho)
      refine ⟨1, ⟨hadv.last, hadv.alloc⟩, fun hout hclear => ⟨⟨?_, ?_⟩, congrFun hlog p⟩⟩
      · rw [hwb]
        exact hclear.wb
      · intro d hd
        rw [← Option.some.inj hd]
        exact hout 0 Nat.one_pos

/-- Closing the open record, whatever has been written to its buffer last. -/
theorem closeRecord_spares (hd : d'.iblock = d.iblock) (st : CommitState bs σ) :
    Spares sb p (some d) st none (closeRecord sb d' st) := by
  refine ⟨0, ⟨rfl, rfl⟩, fun _ hclear => ⟨⟨hclear.wb, fun d hd => by cases hd⟩, ?_⟩⟩
  exact Function.update_of_ne (hd ▸ hclear.desc d rfl).symm _ _

/-- Writing to the open record in its buffer. -/
theorem Spares.write (h : Spares sb p desc st (some d) st') (hd : d'.iblock = d.iblock) :
    Spares sb p desc st (some d') st' := by
  obtain ⟨n, hadv, hlog⟩ := h
  refine ⟨n, hadv, fun hout hclear => ?_⟩
  obtain ⟨hclear', hsame⟩ := hlog hout hclear
  refine ⟨⟨hclear'.wb, fun e he => ?_⟩, hsame⟩
  rw [← Option.some.inj he, hd]
  exact hclear'.desc d rfl

/-- A data block, in the block that has just been allocated. -/
theorem recordData_spares {iblock : ℕ} (ha : jbdJournalAllocBlock cp st = (iblock, st'))
    (hne : iblock ≠ 0) (image : Buf bs) :
    Spares sb p desc st desc (recordData env iblock image st') := by
  obtain ⟨rfl, hadv, hlog, hwb⟩ := jbdJournalAllocBlock_last ha hne
  obtain ⟨hjournal, halloc, -⟩ := recordData_journal env st.journal.last image st'
  refine ⟨1, ⟨hjournal.symm ▸ hadv.last, halloc.trans hadv.alloc⟩, fun hout hclear => ?_⟩
  have hp : st.journal.last ≠ p := hout 0 Nat.one_pos
  refine ⟨⟨fun hmem => ?_, hclear.desc⟩, ?_⟩
  · obtain ⟨w, hw, rfl⟩ := List.mem_map.mp hmem
    rcases mem_wb_recordData hw with hold | rfl
    · exact hclear.wb (List.mem_map_of_mem (hwb ▸ hold))
    · exact hp rfl
  · unfold recordData
    split
    · exact (Function.update_of_ne hp.symm _ _).trans (congrFun hlog p)
    · dsimp only
      split
      · rw [jbdCommitWbFlush, hwb, hlog]
        exact Writes.apply_of_notMem hclear.wb
      · exact congrFun hlog p

/-! ## Descriptor blocks -/

theorem placeTag_spares {tries : ℕ} {info : TagInfo}
    (ht : placeTag cp env id info tries desc st = .ok (d, st')) :
    Spares sb p desc st (some d) st' := by
  induction tries generalizing desc st with
  | zero => cases desc <;> cases ht
  | succ tries ih =>
      cases desc with
      | some d₀ =>
          rw [placeTag] at ht
          split at ht
          · obtain ⟨rfl, rfl⟩ := Prod.mk.inj (Except.ok.inj ht)
            exact (Spares.refl p (some d₀) st).write rfl
          · exact Spares.trans (closeRecord_spares (by rfl) st) (ih ht)
      | none =>
          rw [placeTag] at ht
          split at ht
          · cases ht
          · next d₁ st₁ ho =>
              have hopen := openRecord_spares (p := p) ho
              split at ht
              · obtain ⟨rfl, rfl⟩ := Prod.mk.inj (Except.ok.inj ht)
                exact hopen.write rfl
              · exact hopen.trans (Spares.trans (closeRecord_spares (by rfl) st₁) (ih ht))

theorem prepareBuf_spares {s s' : PrepareState bs σ} {buf : JbdBuf bs}
    (hb : prepareBuf cp env id s buf = .ok s') :
    Spares sb p s.desc s.commit s'.desc s'.commit := by
  unfold prepareBuf at hb
  split at hb
  · obtain rfl := Except.ok.inj hb
    exact Spares.refl p _ _
  · dsimp only at hb
    split at hb
    · cases hb
    · next d commit ht =>
        have htag := placeTag_spares (p := p) ht
        rcases ha : jbdJournalAllocBlock cp commit with ⟨iblock, commit'⟩
        rw [ha] at hb
        dsimp only at hb
        split at hb
        · cases hb
        · next hne =>
            obtain rfl := Except.ok.inj hb
            exact htag.trans (recordData_spares ha hne _)

theorem prepareBufs_spares {s s' : PrepareState bs σ} {bufs : List (JbdBuf bs)}
    (hb : prepareBufs cp env id bufs s = .ok s') :
    Spares sb p s.desc s.commit s'.desc s'.commit := by
  induction bufs generalizing s with
  | nil =>
      obtain rfl := Except.ok.inj hb
      exact Spares.refl p _ _
  | cons buf bufs ih =>
      rw [prepareBufs] at hb
      split at hb
      · cases hb
      · next s₁ hfirst => exact (prepareBuf_spares hfirst).trans (ih hb)

theorem jbdCommitWbFlush_spares (st : CommitState bs σ) :
    Spares sb p desc st none (jbdCommitWbFlush st) := by
  refine ⟨0, ⟨rfl, rfl⟩, fun _ hclear => ⟨⟨List.not_mem_nil, fun d hd => by cases hd⟩, ?_⟩⟩
  exact Writes.apply_of_notMem hclear.wb

theorem jbdJournalPrepare_spares {trans : JbdTrans bs} {csum : UInt32}
    (hp : jbdJournalPrepare cp env trans st = .ok (st', csum)) :
    Spares sb p none st none st' := by
  unfold jbdJournalPrepare at hp
  dsimp only at hp
  split at hp
  · cases hp
  · next fin hbufs =>
      have hfin := prepareBufs_spares (p := p) hbufs
      dsimp only at hfin
      split at hp
      · obtain ⟨rfl, -⟩ := Prod.mk.inj (Except.ok.inj hp)
        exact hfin.trans (jbdCommitWbFlush_spares _)
      · next d hdesc =>
          obtain ⟨rfl, -⟩ := Prod.mk.inj (Except.ok.inj hp)
          rw [hdesc] at hfin
          exact (hfin.trans (closeRecord_spares rfl _)).trans (jbdCommitWbFlush_spares _)

/-! ## Revoke blocks and the commit block -/

/-- Closing a revoke block. -/
theorem closeRevoke_spares (d : OpenRecord bs) (st : CommitState bs σ) :
    Spares sb p (some d) st none (closeRevoke sb d st) :=
  closeRecord_spares (by rfl) st

theorem placeRevoke_spares {tries lba : ℕ}
    (hr : placeRevoke cp env id lba tries desc st = .ok (d, st')) :
    Spares sb p desc st (some d) st' := by
  induction tries generalizing desc st with
  | zero => cases desc <;> cases hr
  | succ tries ih =>
      cases desc with
      | some d₀ =>
          rw [placeRevoke] at hr
          split at hr
          · exact (closeRevoke_spares d₀ st).trans (ih hr)
          · obtain ⟨rfl, rfl⟩ := Prod.mk.inj (Except.ok.inj hr)
            exact (Spares.refl p (some d₀) st).write rfl
      | none =>
          rw [placeRevoke] at hr
          split at hr
          · cases hr
          · next d₁ st₁ ho => exact (openRecord_spares ho).trans (ih hr)

theorem prepareRevokes_spares {lbas : List ℕ}
    (hr : prepareRevokes cp env id lbas desc st = .ok (desc', st')) :
    Spares sb p desc st desc' st' := by
  induction lbas generalizing desc st with
  | nil =>
      obtain ⟨rfl, rfl⟩ := Prod.mk.inj (Except.ok.inj hr)
      exact Spares.refl p _ _
  | cons lba lbas ih =>
      rw [prepareRevokes] at hr
      split at hr
      · cases hr
      · next d₁ st₁ hfirst => exact (placeRevoke_spares hfirst).trans (ih hr)

theorem jbdJournalPrepareRevoke_spares {trans : JbdTrans bs}
    (hr : jbdJournalPrepareRevoke cp env trans st = .ok st') : Spares sb p none st none st' := by
  unfold jbdJournalPrepareRevoke at hr
  split at hr
  · cases hr
  · next st₁ hrevs =>
      obtain rfl := Except.ok.inj hr
      exact prepareRevokes_spares hrevs
  · next d st₁ hrevs =>
      obtain rfl := Except.ok.inj hr
      exact (prepareRevokes_spares hrevs).trans (closeRevoke_spares d st₁)

theorem jbdTransWriteCommitBlock_spares {csum : UInt32}
    (hc : jbdTransWriteCommitBlock cp env id csum st = .ok st') :
    Spares sb p none st none st' := by
  unfold jbdTransWriteCommitBlock at hc
  rcases ha : jbdJournalAllocBlock cp st with ⟨iblock, st₁⟩
  rw [ha] at hc
  dsimp only at hc
  split at hc
  · cases hc
  · next hne =>
      obtain ⟨rfl, hadv, hlog, hwb⟩ := jbdJournalAllocBlock_last ha hne
      obtain rfl := Except.ok.inj hc
      refine ⟨1, ⟨hadv.last, hadv.alloc⟩, fun hout hclear =>
        ⟨⟨hwb.symm ▸ hclear.wb, fun d hd => by cases hd⟩, ?_⟩⟩
      exact (Function.update_of_ne (hout 0 Nat.one_pos).symm _ _).trans (congrFun hlog p)

/-- A commit leaves every block alone that it does not allocate. -/
theorem writeTrans_spares {trans : JbdTrans bs} (hw : writeTrans cp env trans st = .ok st') :
    Spares sb p none st none st' := by
  unfold writeTrans at hw
  split at hw
  · cases hw
  · next st₁ csum hprep =>
      split at hw
      · cases hw
      · next st₂ hrev =>
          exact ((jbdJournalPrepare_spares hprep).trans (jbdJournalPrepareRevoke_spares hrev)).trans
            (jbdTransWriteCommitBlock_spares hw)

/-- The blocks that a commit does not allocate keep their contents. -/
theorem writeTrans_frame {trans : JbdTrans bs} (hstart : CommitStart cp st)
    (hw : writeTrans cp env trans st = .ok st')
    (hout : ∀ k < st'.allocBlocks, (adv sb)^[k] st.journal.last ≠ p) : st'.log p = st.log p := by
  obtain ⟨n, hadv, hspares⟩ := writeTrans_spares (p := p) hw
  have hn : st'.allocBlocks = n := by
    rw [hadv.alloc, hstart.allocBlocks, Nat.zero_add]
  refine (hspares (fun k hk => hout k (hn ▸ hk)) ⟨?_, fun d hd => by cases hd⟩).2
  rw [hstart.wb]
  exact List.not_mem_nil

end Jbd
