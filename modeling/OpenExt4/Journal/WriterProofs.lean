import OpenExt4.Journal.Writer

set_option autoImplicit false

/-! # What the writer lays down

The invariant of a commit is stated about `view`: the log as it will be once the gathered payload
has been written. Every block the transaction allocates is the next one behind the transaction's
first (`Placing`), so that what has been laid down is a run of blocks from there on and each step
makes the run longer. -/

namespace Jbd

open Bytes

variable {bs : ℕ} {σ : Type} {sb : JbdSb bs} {cp : Checkpoint sb σ} {env : CommitEnv bs}

/-! ## Allocation -/

/-- The log with the gathered payload written out. -/
def CommitState.view (st : CommitState bs σ) : ℕ → Buf bs := Writes.apply st.wb st.log

/-- The blocks allocated so far are the ones from `head` on, all of them short of the tail, and
    the gathered payload is for blocks among them. -/
structure Placing (cp : Checkpoint sb σ) (head : ℕ) (st : CommitState bs σ) : Prop where
  inLog : InLog sb head
  last : st.journal.last = (adv sb)^[st.allocBlocks] head
  committed : cp.committedEnd st.journal.rest = head
  tail : ∃ m, st.allocBlocks < m ∧ m ≤ logSize sb ∧ st.journal.start = (adv sb)^[m] head
  pending : ∀ w ∈ st.wb, ∃ k < st.allocBlocks, w.1 = (adv sb)^[k] head

@[simp] theorem publish_start (j : Journal σ) : (publish cp j).start = j.start := rfl

@[simp] theorem publish_last (j : Journal σ) : (publish cp j).last = j.last := rfl

theorem committedEnd_publish (j : Journal σ) :
    cp.committedEnd (publish cp j).rest = cp.committedEnd j.rest := cp.committedEnd_writeSb j.rest

@[simp] theorem publishBeforeLap_start (j : Journal σ) :
    (publishBeforeLap cp j).start = j.start := by
  unfold publishBeforeLap
  split <;> rfl

@[simp] theorem publishBeforeLap_last (j : Journal σ) : (publishBeforeLap cp j).last = j.last := by
  unfold publishBeforeLap
  split <;> rfl

theorem committedEnd_publishBeforeLap (j : Journal σ) :
    cp.committedEnd (publishBeforeLap cp j).rest = cp.committedEnd j.rest := by
  unfold publishBeforeLap
  split
  · exact committedEnd_publish j
  · rfl

theorem Placing.allocBlocks_lt {head : ℕ} {st : CommitState bs σ} (h : Placing cp head st) :
    st.allocBlocks < logSize sb := by
  obtain ⟨m, hlt, hle, _⟩ := h.tail
  omega

/-- A purge leaves the tail ahead of the transaction, no closer to it than it was. -/
theorem purge_tail {head start m : ℕ} {rest : σ} (hhead : InLog sb head)
    (hcommitted : cp.committedEnd rest = head) (hpos : 0 < m) (hm : m ≤ logSize sb)
    (hstart : start = (adv sb)^[m] head) :
    ∃ m', m ≤ m' ∧ m' ≤ logSize sb ∧ (cp.purge start rest).1 = (adv sb)^[m'] head := by
  have htail : InLog sb start := hstart ▸ hhead.iterate m
  have hforward := cp.purge_forward start rest htail
  rw [hcommitted] at hforward
  refine Circular.exists_iterate_of_dist_le hhead (cp.purge_inLog start rest htail) hpos hm ?_
  rw [hstart] at hforward ⊢
  exact hforward

/-- What a successful allocation does: it hands out the next block and moves nothing but the
    journal's positions. -/
theorem jbdJournalAllocBlock_spec {head iblock : ℕ} {st st' : CommitState bs σ}
    (h : Placing cp head st) (ha : jbdJournalAllocBlock cp st = (iblock, st'))
    (hne : iblock ≠ 0) :
    iblock = (adv sb)^[st.allocBlocks] head ∧ Placing cp head st' ∧
      ∃ j, st' = { st with journal := j, allocBlocks := st.allocBlocks + 1 } := by
  obtain ⟨m, hlt, hle, hstart⟩ := h.tail
  have hnext : wrap sb (st.journal.last + 1) = (adv sb)^[st.allocBlocks + 1] head := by
    rw [wrap_succ, h.last, Function.iterate_succ_apply']
  have hpending : ∀ w ∈ st.wb, ∃ k < st.allocBlocks + 1, w.1 = (adv sb)^[k] head := by
    intro w hw
    obtain ⟨k, hk, hkeq⟩ := h.pending w hw
    exact ⟨k, by omega, hkeq⟩
  unfold jbdJournalAllocBlock at ha
  dsimp only at ha
  split at ha
  · next hfull =>
      -- the head has reached the tail: a purge has to move the tail on
      split at ha
      · next hstuck =>
          rw [Prod.mk.injEq] at ha
          exact absurd ha.1.symm hne
      · next hmoved =>
          rw [Prod.mk.injEq] at ha
          obtain ⟨rfl, rfl⟩ := ha
          obtain ⟨m', hmm', hm'le, hm'eq⟩ :=
            purge_tail h.inLog h.committed (by omega) hle hstart
          refine ⟨h.last, ⟨h.inLog, ?_, ?_, ⟨m', ?_, hm'le, ?_⟩, hpending⟩, _, rfl⟩
          · simpa using hnext
          · rw [committedEnd_publishBeforeLap, committedEnd_publish, cp.committedEnd_purge]
            exact h.committed
          · by_contra hge
            obtain rfl : m' = st.allocBlocks + 1 := by dsimp only at hge; omega
            exact hmoved (hnext.trans hm'eq.symm)
          · simpa using hm'eq
  · next hroom =>
      rw [Prod.mk.injEq] at ha
      obtain ⟨rfl, rfl⟩ := ha
      refine ⟨h.last, ⟨h.inLog, ?_, ?_, ⟨m, ?_, hle, ?_⟩, hpending⟩, _, rfl⟩
      · simpa using hnext
      · rw [committedEnd_publishBeforeLap]
        exact h.committed
      · by_contra hge
        obtain rfl : m = st.allocBlocks + 1 := by dsimp only at hge; omega
        exact hroom (hnext.trans hstart.symm)
      · simpa using hstart

/-! ## Runs under construction -/

/-- The transaction has laid down `stream` and nothing else. -/
structure Laid (cp : Checkpoint sb σ) (head : ℕ) (st : CommitState bs σ)
    (stream : List (Buf bs)) : Prop where
  placing : Placing cp head st
  alloc : st.allocBlocks = stream.length
  onLog : OnLog sb st.view head stream
  begun : (st.startIblock = 0 ∧ stream = []) ∨ (st.startIblock = head ∧ head ≠ 0)

/-- The same with a record `d` still in its buffer, between `stream` and `rest`. -/
structure LaidOpen (cp : Checkpoint sb σ) (head : ℕ) (st : CommitState bs σ) (d : OpenRecord bs)
    (stream rest : List (Buf bs)) : Prop where
  placing : Placing cp head st
  alloc : st.allocBlocks = stream.length + 1 + rest.length
  iblock : d.iblock = (adv sb)^[stream.length] head
  free : d.iblock ∉ st.wb.map Prod.fst
  onLog : OnLog sb (Function.update st.view d.iblock d.block) head (stream ++ d.block :: rest)
  begun : st.startIblock = head ∧ head ≠ 0

/-- A block that has just been allocated is not among the gathered payload. -/
theorem Placing.not_pending {head k : ℕ} {st : CommitState bs σ} (h : Placing cp head st)
    (hk : st.allocBlocks ≤ k) (hlt : k < logSize sb) :
    (adv sb)^[k] head ∉ st.wb.map Prod.fst := by
  intro hmem
  obtain ⟨w, hw, hweq⟩ := List.mem_map.mp hmem
  obtain ⟨j, hj, hjeq⟩ := h.pending w hw
  exact Circular.iterate_next_ne h.inLog (by omega) (by unfold logSize at hlt; omega)
    (hjeq.symm.trans hweq)

/-- Starting a record behind what has been laid down. -/
theorem openRecord_spec {head blocktype transId headerSize : ℕ} {st st' : CommitState bs σ}
    {stream : List (Buf bs)} {d : OpenRecord bs} (h : Laid cp head st stream)
    (ho : openRecord cp env blocktype transId headerSize st = .ok (d, st')) :
    LaidOpen cp head st' d stream [] ∧
      d.block = setHeader (env.noread d.iblock) blocktype transId ∧ d.ptr = headerSize ∧
      d.tagTblSize = bs - headerSize - tailSize sb ∧ st'.wb = st.wb := by
  unfold openRecord at ho
  cases ha : jbdJournalAllocBlock cp st with
  | mk iblock st₁ =>
      rw [ha] at ho
      dsimp only at ho
      split at ho
      · cases ho
      · next hne =>
          obtain ⟨hib, hplacing, j, rfl⟩ := jbdJournalAllocBlock_spec h.placing ha hne
          obtain ⟨rfl, rfl⟩ := Prod.mk.inj (Except.ok.inj ho)
          have hlt : stream.length < logSize sb := by
            have := h.placing.allocBlocks_lt
            rw [h.alloc] at this
            exact this
          rw [h.alloc] at hib
          refine ⟨⟨⟨hplacing.inLog, hplacing.last, hplacing.committed, hplacing.tail,
            hplacing.pending⟩, ?_, hib, ?_, ?_, ?_⟩, rfl, rfl, rfl, rfl⟩
          · simp [h.alloc]
          · rw [hib]
            exact h.placing.not_pending h.alloc.le hlt
          · rw [hib]
            exact h.onLog.snoc h.placing.inLog hlt
          · rcases h.begun with ⟨hzero, rfl⟩ | ⟨hstart, hhead⟩
            · obtain rfl : iblock = head := hib
              simp [hzero, hne]
            · simp [hstart, hhead]

/-- Whatever is done to the record in its buffer, the run around it stays. -/
theorem LaidOpen.write {head : ℕ} {st : CommitState bs σ} {d : OpenRecord bs}
    {stream rest : List (Buf bs)} (h : LaidOpen cp head st d stream rest) (block : Buf bs)
    (ptr tagTblSize : ℕ) :
    LaidOpen cp head st { d with block := block, ptr := ptr, tagTblSize := tagTblSize }
      stream rest := by
  refine ⟨h.placing, h.alloc, h.iblock, h.free, ?_, h.begun⟩
  have hlen : (stream ++ d.block :: rest).length ≤ logSize sb := by
    have := h.placing.allocBlocks_lt
    rw [h.alloc] at this
    simp only [List.length_append, List.length_cons]
    omega
  have hset := h.onLog.set block h.placing.inLog hlen
  rw [← h.iblock, Function.update_idem] at hset
  exact hset

/-- Releasing the record completes the run. -/
theorem LaidOpen.close {head : ℕ} {st : CommitState bs σ} {d : OpenRecord bs}
    {stream rest : List (Buf bs)} (h : LaidOpen cp head st d stream rest) :
    Laid cp head (closeRecord sb d st) (stream ++ jbdMetaCsumSet sb d.block :: rest) := by
  obtain ⟨hinLog, hlast, hcommitted, htail, hpending⟩ := h.placing
  refine ⟨⟨hinLog, hlast, hcommitted, htail, hpending⟩, ?_, ?_, Or.inr h.begun⟩
  · rw [List.length_append, List.length_cons]
    exact h.alloc.trans (by omega)
  · have hview : (closeRecord sb d st).view
        = Function.update st.view d.iblock (jbdMetaCsumSet sb d.block) :=
      Writes.apply_update_comm h.free
    rw [hview]
    exact (h.write (jbdMetaCsumSet sb d.block) 0 0).onLog

/-- Where `recordData` puts a block, seen through the view. -/
theorem view_recordData {iblock : ℕ} {image : Buf bs} {st : CommitState bs σ}
    (hfree : iblock ∉ st.wb.map Prod.fst) :
    (recordData env iblock image st).view = Function.update st.view iblock image := by
  unfold recordData CommitState.view
  split
  · exact Writes.apply_update_comm hfree
  · split <;> simp [jbdCommitWbFlush, Writes.apply_append]

/-- The payload gathered after recording a block. -/
theorem mem_wb_recordData {iblock : ℕ} {image : Buf bs} {st : CommitState bs σ}
    {w : ℕ × Buf bs} (hw : w ∈ (recordData env iblock image st).wb) :
    w ∈ st.wb ∨ w = (iblock, image) := by
  unfold recordData at hw
  split at hw
  · exact Or.inl hw
  · split at hw
    · right
      simpa [jbdCommitWbFlush] using hw
    · simpa using hw

theorem recordData_journal (env : CommitEnv bs) (iblock : ℕ) (image : Buf bs)
    (st : CommitState bs σ) :
    (recordData env iblock image st).journal = st.journal ∧
      (recordData env iblock image st).allocBlocks = st.allocBlocks ∧
      (recordData env iblock image st).startIblock = st.startIblock := by
  unfold recordData
  split
  · exact ⟨rfl, rfl, rfl⟩
  · split <;> exact ⟨rfl, rfl, rfl⟩

/-- A data block behind the run, with the record still open. -/
theorem LaidOpen.record {head iblock : ℕ} {st st' : CommitState bs σ} {d : OpenRecord bs}
    {stream rest : List (Buf bs)} {image : Buf bs} (h : LaidOpen cp head st d stream rest)
    (ha : jbdJournalAllocBlock cp st = (iblock, st')) (hne : iblock ≠ 0) :
    LaidOpen cp head (recordData env iblock image st') d stream (rest ++ [image]) := by
  obtain ⟨hib, hplacing, j, rfl⟩ := jbdJournalAllocBlock_spec h.placing ha hne
  have hlt := h.placing.allocBlocks_lt
  have hdne : d.iblock ≠ iblock := by
    rw [h.iblock, hib]
    exact Circular.iterate_next_ne h.placing.inLog (by rw [h.alloc]; omega)
      (by unfold logSize at hlt; omega)
  have hfree : iblock ∉ st.wb.map Prod.fst := by
    rw [hib]
    exact h.placing.not_pending le_rfl hlt
  obtain ⟨hjournal, halloc, hbegun⟩ := recordData_journal env iblock image
    { st with journal := j, allocBlocks := st.allocBlocks + 1 }
  refine ⟨⟨h.placing.inLog, ?_, ?_, ?_, ?_⟩, ?_, h.iblock, ?_, ?_,
    hbegun.trans h.begun.1, h.begun.2⟩
  · rw [hjournal, halloc]
    exact hplacing.last
  · rw [hjournal]
    exact hplacing.committed
  · rw [hjournal, halloc]
    exact hplacing.tail
  · intro w hw
    rw [halloc]
    rcases mem_wb_recordData hw with hold | rfl
    · exact hplacing.pending w hold
    · exact ⟨st.allocBlocks, Nat.lt_succ_self _, hib⟩
  · rw [halloc, List.length_append, List.length_singleton]
    dsimp only
    rw [h.alloc]
    omega
  · intro hmem
    obtain ⟨w, hw, hweq⟩ := List.mem_map.mp hmem
    rcases mem_wb_recordData hw with hold | rfl
    · exact h.free (List.mem_map.mpr ⟨w, hold, hweq⟩)
    · exact hdne hweq.symm
  · have hview : (recordData env iblock image
        { st with journal := j, allocBlocks := st.allocBlocks + 1 }).view
        = Function.update st.view iblock image := view_recordData hfree
    rw [hview, Function.update_comm hdne.symm, hib]
    have hlen : st.allocBlocks = (stream ++ d.block :: rest).length := by
      rw [h.alloc]
      simp
      omega
    rw [hlen]
    have hsnoc := h.onLog.snoc (b := image) h.placing.inLog (hlen ▸ hlt)
    rw [List.append_assoc] at hsnoc
    exact hsnoc

/-! ## Descriptor blocks -/

/-- What the tag information of the loop says of its block. -/
def infoKey (info : TagInfo) : ℕ × Bool := (info.block, info.isEscape)

/-- The buffer of an open descriptor block holds the tags `infos`. -/
structure TagsIn (sb : JbdSb bs) (id : ℕ) (d : OpenRecord bs) (infos : List TagInfo) : Prop where
  header : HeaderIs d.block JBD_DESCRIPTOR_BLOCK id
  stored : StoredTags sb d.block BHDR_SIZE infos
  ptr : d.ptr = BHDR_SIZE + tableSize sb infos
  space : d.tagTblSize + tableSize sb infos = tagTableSpace sb

theorem tagTableSpace_bounds (sb : JbdSb bs) :
    1008 ≤ tagTableSpace sb ∧ BHDR_SIZE + tagTableSpace sb + tailSize sb = bs := by
  have hbs := sb.block_size
  have htail := tailSize_le sb
  unfold tagTableSpace BHDR_SIZE
  omega

theorem tableSize_snoc (sb : JbdSb bs) (infos : List TagInfo) (info : TagInfo) :
    tableSize sb (infos ++ [info]) = tableSize sb infos + tagSize sb info := by
  simp [tableSize]

/-- A descriptor block just opened holds no tags. -/
theorem tagsIn_nil {id : ℕ} {d : OpenRecord bs} (hid : id < 2 ^ 32)
    (hblock : d.block = setHeader (env.noread d.iblock) JBD_DESCRIPTOR_BLOCK id)
    (hptr : d.ptr = BHDR_SIZE) (hspace : d.tagTblSize = bs - BHDR_SIZE - tailSize sb) :
    TagsIn sb id d [] := by
  have hbs : BHDR_SIZE ≤ bs := by have := sb.block_size; unfold BHDR_SIZE; omega
  refine ⟨?_, trivial, by simpa [tableSize] using hptr,
    by simpa [tableSize, tagTableSpace] using hspace⟩
  rw [hblock]
  exact headerIs_setHeader _ hbs (by decide) hid

/-- Writing one more tag. -/
theorem TagsIn.write {id : ℕ} {d : OpenRecord bs} {infos : List TagInfo} {info : TagInfo}
    (h : TagsIn sb id d infos) (hblock : FitsTag sb info.block)
    (hfit : tagSize sb info ≤ d.tagTblSize) :
    ∃ block, jbdWriteBlockTag sb d.block d.ptr d.tagTblSize info
        = .ok (block, tagSize sb info) ∧
      TagsIn sb id { d with block := block, ptr := d.ptr + tagSize sb info,
                            tagTblSize := d.tagTblSize - tagSize sb info } (infos ++ [info]) := by
  refine ⟨_, jbdWriteBlockTag_eq sb d.block d.ptr d.tagTblSize info hfit, ?_⟩
  obtain ⟨_, hspace⟩ := tagTableSpace_bounds sb
  have hin : d.ptr + tagSize sb info ≤ bs := by
    have hptr := h.ptr
    have htbl := h.space
    omega
  -- a tag is written behind the header and the tags already there
  have hframe : ∀ i < d.ptr,
      get8 (finishTag sb (beginTag sb d.block d.ptr info) d.ptr info) i = get8 d.block i :=
    fun i hi => by rw [get8_finishTag (Or.inl (by omega)), get8_beginTag_of_lt hi]
  have hptr := h.ptr
  have hspace := h.space
  constructor
  · exact h.header.congr fun i hi => hframe i (by omega)
  · refine (h.stored.congr fun i _ hi => hframe i (by omega)).snoc ?_ hblock
    rw [← h.ptr]
    exact tagStored_write d.block hin
  · rw [tableSize_snoc]
    dsimp only
    omega
  · rw [tableSize_snoc]
    dsimp only
    omega

/-- Setting the checksum keeps header and tags. -/
theorem TagsIn.csum {id : ℕ} {d : OpenRecord bs} {infos : List TagInfo}
    (h : TagsIn sb id d infos) :
    HeaderIs (jbdMetaCsumSet sb d.block) JBD_DESCRIPTOR_BLOCK id ∧
      StoredTags sb (jbdMetaCsumSet sb d.block) BHDR_SIZE infos := by
  obtain ⟨_, hspace⟩ := tagTableSpace_bounds sb
  have htbl := h.space
  exact ⟨h.header.congr fun i hi => get8_jbdMetaCsumSet (by omega),
    h.stored.congr fun i _ hi => get8_jbdMetaCsumSet (by omega)⟩

theorem map_readBack_key (sb : JbdSb bs) (infos : List TagInfo) :
    (infos.map (readBack sb)).map (fun t => (t.block, t.isEscape)) = infos.map infoKey := by
  rw [List.map_map]
  rfl

/-- A descriptor block closed because no further tag fits describes its blocks. -/
theorem TagsIn.describes_full {id : ℕ} {d : OpenRecord bs} {infos : List TagInfo}
    {chunk : List (ℕ × Buf bs)} (h : TagsIn sb id d infos)
    (hkeys : infos.map infoKey = chunk.map tagKey)
    (hmid : ∀ info ∈ infos, info.lastTag = false) (hfull : d.tagTblSize < jbdTagBytes sb) :
    Describes sb id chunk (jbdMetaCsumSet sb d.block) := by
  obtain ⟨hheader, hstored⟩ := h.csum
  have hspace := h.space
  refine ⟨hheader, jbdVerifyMetaCsum_set sb d.block, ?_⟩
  rw [descriptorTags_of_full hstored hmid (by omega) (by omega), map_readBack_key, hkeys]

/-- A descriptor block whose final tag is marked last describes its blocks. -/
theorem TagsIn.describes_last {id : ℕ} {d : OpenRecord bs} {infos : List TagInfo}
    {info : TagInfo} {chunk : List (ℕ × Buf bs)} (h : TagsIn sb id d (infos ++ [info]))
    (hkeys : (infos ++ [info]).map infoKey = chunk.map tagKey)
    (hmid : ∀ info ∈ infos, info.lastTag = false) (hlast : info.lastTag = true) :
    Describes sb id chunk (jbdMetaCsumSet sb d.block) := by
  obtain ⟨hheader, hstored⟩ := h.csum
  have hspace := h.space
  rw [tableSize_snoc] at hspace
  obtain ⟨hfront, htag, hblock⟩ := hstored.of_snoc
  refine ⟨hheader, jbdVerifyMetaCsum_set sb d.block, ?_⟩
  rw [descriptorTags_of_last hfront hmid htag hblock hlast (by omega), map_readBack_key, hkeys]

/-! ## The loop of `jbd_journal_prepare` -/

/-- A descriptor block in its buffer, with the blocks `closed` described by earlier ones: its tags
    are `infos`, and behind it stand the images of `chunk`. -/
structure Describing (cp : Checkpoint sb σ) (id head : ℕ) (st : CommitState bs σ)
    (d : OpenRecord bs) (closed chunk : List (ℕ × Buf bs)) (infos : List TagInfo) : Prop where
  stream : ∃ stream, DescStream sb id closed stream ∧
    LaidOpen cp head st d stream (chunk.map logImage)
  tags : TagsIn sb id d infos

/-- Placing a tag in a new descriptor block. -/
theorem placeTag_none {id head tries : ℕ} {info : TagInfo} {st st' : CommitState bs σ}
    {d : OpenRecord bs} {done : List (ℕ × Buf bs)} {stream : List (Buf bs)}
    (hid : id < 2 ^ 32) (hblock : FitsTag sb info.block) (hdone : DescStream sb id done stream)
    (h : Laid cp head st stream)
    (hp : placeTag cp env id info (tries + 1) none st = .ok (d, st')) :
    Describing cp id head st' d done [] [{ info with uuidExist := true }] := by
  rw [placeTag] at hp
  cases ho : openRecord cp env JBD_DESCRIPTOR_BLOCK id BHDR_SIZE st with
  | error e => simp [ho] at hp
  | ok r =>
      obtain ⟨d₀, st₀⟩ := r
      obtain ⟨hopen, hd, hptr, hspace, _⟩ := openRecord_spec h ho
      have htags : TagsIn sb id d₀ [] := tagsIn_nil hid hd hptr hspace
      -- a tag with a UUID takes at most 32 bytes, a new table has a thousand
      have hfit : tagSize sb { info with uuidExist := true } ≤ d₀.tagTblSize := by
        have hsize := (tagSize_bounds sb { info with uuidExist := true }).2
        have hbytes := (jbdTagBytes_bounds sb).2
        have hbig := (tagTableSpace_bounds sb).1
        have htbl := htags.space
        simp only [tableSize, List.map_nil, List.sum_nil, Nat.add_zero] at htbl
        unfold UUID_SIZE at hsize
        omega
      have hinfo : FitsTag sb ({ info with uuidExist := true } : TagInfo).block := hblock
      obtain ⟨block, hwrite, hnew⟩ := htags.write hinfo hfit
      simp only [ho, hwrite] at hp
      obtain ⟨rfl, rfl⟩ := Prod.mk.inj (Except.ok.inj hp)
      exact ⟨⟨stream, hdone, hopen.write _ _ _⟩, hnew⟩

/-- Placing a tag: it goes into the open descriptor block, or that one is full, closed as it
    stands, and the tag is the first of a new one. -/
theorem placeTag_some {id head : ℕ} {info : TagInfo} {st st' : CommitState bs σ}
    {d d' : OpenRecord bs} {closed chunk : List (ℕ × Buf bs)} {infos : List TagInfo}
    (hid : id < 2 ^ 32) (hblock : FitsTag sb info.block)
    (h : Describing cp id head st d closed chunk infos)
    (hkeys : infos.map infoKey = chunk.map tagKey)
    (hmid : ∀ info ∈ infos, info.lastTag = false)
    (hp : placeTag cp env id info 2 (some d) st = .ok (d', st')) :
    Describing cp id head st' d' closed chunk (infos ++ [{ info with uuidExist := false }]) ∨
      Describing cp id head st' d' (closed ++ chunk) [] [{ info with uuidExist := true }] := by
  obtain ⟨stream, hclosed, hopen⟩ := h.stream
  rw [placeTag] at hp
  by_cases hfit : tagSize sb { info with uuidExist := false } ≤ d.tagTblSize
  · left
    have hinfo : FitsTag sb ({ info with uuidExist := false } : TagInfo).block := hblock
    obtain ⟨block, hwrite, hnew⟩ := h.tags.write hinfo hfit
    simp only [hwrite] at hp
    obtain ⟨rfl, rfl⟩ := Prod.mk.inj (Except.ok.inj hp)
    exact ⟨⟨stream, hclosed, hopen.write _ _ _⟩, hnew⟩
  · right
    have hfull : d.tagTblSize < jbdTagBytes sb := by
      simp only [tagSize, Bool.false_eq_true, if_false] at hfit
      omega
    rw [jbdWriteBlockTag_full sb d.block d.ptr d.tagTblSize _ hfull] at hp
    dsimp only at hp
    have hdesc := h.tags.describes_full hkeys hmid hfull
    exact placeTag_none hid hblock (hclosed.snoc hdesc) hopen.close hp

/-- The loop invariant: `done` are the blocks that have their tag and their image, `last` says
    whether the newest tag is marked as the transaction's last one. -/
def Prepared (cp : Checkpoint sb σ) (id head : ℕ) (st : PrepareState bs σ)
    (done : List (ℕ × Buf bs)) (last : Bool) : Prop :=
  match st.desc with
  | none => done = [] ∧ Laid cp head st.commit []
  | some d => ∃ closed chunk infos info, done = closed ++ chunk ∧
      Describing cp id head st.commit d closed chunk (infos ++ [info]) ∧
      (infos ++ [info]).map infoKey = chunk.map tagKey ∧
      (∀ i ∈ infos, i.lastTag = false) ∧ info.lastTag = last

/-- What `placeTag` leaves, from the loop invariant: all blocks done are described, and the new
    tag stands at the end of the open table. -/
theorem placeTag_spec {id head : ℕ} {info : TagInfo} {st : PrepareState bs σ}
    {st' : CommitState bs σ} {d : OpenRecord bs} {done : List (ℕ × Buf bs)}
    (hid : id < 2 ^ 32) (hblock : FitsTag sb info.block) (h : Prepared cp id head st done false)
    (hp : placeTag cp env id info 2 st.desc st.commit = .ok (d, st')) :
    ∃ closed chunk infos u, done = closed ++ chunk ∧
      Describing cp id head st' d closed chunk (infos ++ [{ info with uuidExist := u }]) ∧
      infos.map infoKey = chunk.map tagKey ∧ ∀ i ∈ infos, i.lastTag = false := by
  unfold Prepared at h
  cases hdesc : st.desc with
  | none =>
      rw [hdesc] at h hp
      obtain ⟨rfl, hlaid⟩ := h
      exact ⟨[], [], [], true, rfl, placeTag_none hid hblock DescStream.nil hlaid hp, rfl, by simp⟩
  | some d₀ =>
      rw [hdesc] at h hp
      obtain ⟨closed, chunk, infos, final, rfl, hopen, hkeys, hmid, hfinal⟩ := h
      have hall : ∀ i ∈ infos ++ [final], i.lastTag = false := by
        intro i hi
        rcases List.mem_append.mp hi with hi | hi
        · exact hmid i hi
        · rw [List.mem_singleton.mp hi]
          exact hfinal
      rcases placeTag_some hid hblock hopen hkeys hall hp with hsame | hnew
      · exact ⟨closed, chunk, infos ++ [final], false, rfl, hsame, hkeys, hall⟩
      · exact ⟨closed ++ chunk, [], [], true, by simp, hnew, rfl, by simp⟩

/-- One dirty buffer. -/
theorem prepareBuf_dirty {id head : ℕ} {st st' : PrepareState bs σ} {buf : JbdBuf bs}
    {done : List (ℕ × Buf bs)} (hid : id < 2 ^ 32) (hblock : FitsTag sb buf.lba)
    (hdirty : buf.dirty = true) (h : Prepared cp id head st done false)
    (hp : prepareBuf cp env id st buf = .ok st') :
    Prepared cp id head st' (done ++ [(buf.lba, buf.data)]) (st.i + 1 == st.dataCnt) ∧
      st'.i = st.i + 1 ∧ st'.dataCnt = st.dataCnt := by
  simp only [prepareBuf, hdirty, Bool.not_true, Bool.false_eq_true, if_false] at hp
  split at hp
  · cases hp
  · next d commit hplace =>
      obtain ⟨closed, chunk, infos, u, rfl, hopen, hkeys, hmid⟩ :=
        placeTag_spec hid hblock h hplace
      obtain ⟨stream, hclosed, hlaid⟩ := hopen.stream
      cases ha : jbdJournalAllocBlock cp commit with
      | mk iblock commit' =>
          rw [ha] at hp
          dsimp only at hp
          split at hp
          · cases hp
          · next hne =>
              obtain rfl := Except.ok.inj hp
              refine ⟨⟨closed, chunk ++ [(buf.lba, buf.data)], infos, _, by simp,
                ⟨⟨stream, hclosed, ?_⟩, hopen.tags⟩, ?_, hmid, rfl⟩, rfl, rfl⟩
              · rw [List.map_append]
                exact hlaid.record ha hne
              · rw [List.map_append, List.map_append, hkeys]
                rfl

/-- The whole queue, when its last buffer is dirty: the last tag written is marked last. -/
theorem prepareBufs_spec {id head : ℕ} {bufs : List (JbdBuf bs)} {st st' : PrepareState bs σ}
    {done : List (ℕ × Buf bs)} (hid : id < 2 ^ 32) (hblocks : ∀ b ∈ bufs, FitsTag sb b.lba)
    (hlast : ∀ b ∈ bufs.getLast?, b.dirty = true) (hne : bufs ≠ [])
    (hi : st.i = done.length) (hcnt : st.dataCnt = done.length + bufs.length)
    (h : Prepared cp id head st done false) (hp : prepareBufs cp env id bufs st = .ok st') :
    Prepared cp id head st' (done ++ loggedBlocks bufs) true := by
  induction bufs generalizing st done with
  | nil => exact absurd rfl hne
  | cons buf rest ih =>
      have hrest : ∀ b ∈ rest, FitsTag sb b.lba := fun b hb => hblocks b (List.mem_cons_of_mem _ hb)
      have hlast' : ∀ b ∈ rest.getLast?, b.dirty = true := by
        intro b hb
        refine hlast b ?_
        rw [List.getLast?_cons, Option.mem_def.mp hb]
        rfl
      rw [List.length_cons] at hcnt
      rw [prepareBufs] at hp
      cases hbuf : prepareBuf cp env id st buf with
      | error e => simp [hbuf] at hp
      | ok st₁ =>
          rw [hbuf] at hp
          dsimp only at hp
          by_cases hdirty : buf.dirty = true
          · obtain ⟨hprep, hi₁, hcnt₁⟩ :=
              prepareBuf_dirty hid (hblocks buf (List.mem_cons_self ..)) hdirty h hbuf
            have hlogged : done ++ loggedBlocks (buf :: rest)
                = (done ++ [(buf.lba, buf.data)]) ++ loggedBlocks rest := by
              simp [loggedBlocks, hdirty]
            rw [hlogged]
            by_cases hend : rest = []
            · subst hend
              obtain rfl := Except.ok.inj hp
              have hflag : (st.i + 1 == st.dataCnt) = true := by
                rw [hcnt, hi]
                simp
              rw [hflag] at hprep
              simpa [loggedBlocks] using hprep
            · have hpos : 0 < rest.length := List.length_pos_iff.mpr hend
              have hflag : (st.i + 1 == st.dataCnt) = false := by
                rw [hcnt, hi]
                simp
                omega
              rw [hflag] at hprep
              refine ih hrest hlast' hend ?_ ?_ hprep hp
              · rw [hi₁, hi]
                simp
              · rw [hcnt₁, hcnt]
                simp
                omega
          · -- a clean buffer is let go, and cannot have been the last one
            have hend : rest ≠ [] := by
              rintro rfl
              exact hdirty (hlast buf rfl)
            have hclean : buf.dirty = false := by simpa using hdirty
            obtain rfl : { st with dataCnt := st.dataCnt - 1 } = st₁ := by
              simpa [prepareBuf, hclean] using hbuf
            have hlogged : loggedBlocks (buf :: rest) = loggedBlocks rest := by
              simp [loggedBlocks, hclean]
            rw [hlogged]
            have hprep : Prepared cp id head { st with dataCnt := st.dataCnt - 1 } done false := h
            have hcnt' : st.dataCnt - 1 = done.length + rest.length := by omega
            refine ih hrest hlast' hend ?_ ?_ hprep hp
            · exact hi
            · exact hcnt'

/-- Dropping clean buffers at the tail changes neither what is logged nor, then, ends in one. -/
theorem loggedBlocks_rdropWhile (bufs : List (JbdBuf bs)) :
    loggedBlocks (bufs.rdropWhile fun b => !b.dirty) = loggedBlocks bufs := by
  have hclean : (bufs.rtakeWhile fun b => !b.dirty).filter JbdBuf.dirty = [] := by
    rw [List.filter_eq_nil_iff]
    intro b hb
    have := List.mem_rtakeWhile_imp hb
    simpa using this
  calc loggedBlocks (bufs.rdropWhile fun b => !b.dirty)
      = loggedBlocks
          ((bufs.rdropWhile fun b => !b.dirty) ++ bufs.rtakeWhile fun b => !b.dirty) := by
        rw [loggedBlocks, loggedBlocks, List.filter_append, hclean, List.append_nil]
    _ = loggedBlocks bufs := by rw [List.rdropWhile_append_rtakeWhile]

theorem getLast_rdropWhile_dirty (bufs : List (JbdBuf bs)) :
    ∀ b ∈ (bufs.rdropWhile fun b => !b.dirty).getLast?, b.dirty = true := by
  intro b hb
  by_cases hnil : (bufs.rdropWhile fun b => !b.dirty) = []
  · rw [hnil] at hb
    simp at hb
  · have hnot := List.rdropWhile_last_not (fun b : JbdBuf bs => !b.dirty) bufs hnil
    rw [List.getLast?_eq_some_getLast hnil, Option.mem_some_iff] at hb
    rw [← hb]
    simpa using hnot

/-- Writing out the gathered payload changes nothing that `view` shows. -/
theorem Laid.flush {head : ℕ} {st : CommitState bs σ} {stream : List (Buf bs)}
    (h : Laid cp head st stream) : Laid cp head (jbdCommitWbFlush st) stream := by
  obtain ⟨hinLog, hlast, hcommitted, htail, _⟩ := h.placing
  exact ⟨⟨hinLog, hlast, hcommitted, htail, by simp [jbdCommitWbFlush]⟩, h.alloc, h.onLog, h.begun⟩

/-- `jbd_journal_prepare` lays down the data part of the transaction. -/
theorem jbdJournalPrepare_spec {trans : JbdTrans bs} {head : ℕ} {st st' : CommitState bs σ}
    {dataCsum : UInt32} (hid : trans.transId < 2 ^ 32)
    (hcnt : trans.dataCnt = trans.bufQueue.length)
    (hblocks : ∀ b ∈ trans.bufQueue, FitsTag sb b.lba) (h : Laid cp head st [])
    (hp : jbdJournalPrepare cp env trans st = .ok (st', dataCsum)) :
    ∃ stream, DescStream sb trans.transId (loggedBlocks trans.bufQueue) stream ∧
      Laid cp head st' stream ∧ st'.wb = [] := by
  rw [← loggedBlocks_rdropWhile trans.bufQueue]
  unfold jbdJournalPrepare at hp
  dsimp only at hp
  have hpre : (trans.bufQueue.rdropWhile fun b => !b.dirty) <+: trans.bufQueue :=
    List.rdropWhile_prefix _ _
  have hle := hpre.length_le
  have hsub : ∀ b ∈ trans.bufQueue.rdropWhile fun b => !b.dirty, FitsTag sb b.lba :=
    fun b hb => hblocks b (hpre.subset hb)
  have hlast := getLast_rdropWhile_dirty trans.bufQueue
  generalize (trans.bufQueue.rdropWhile fun b => !b.dirty) = bufs at hp hle hsub hlast
  split at hp
  · cases hp
  · next fin hloop =>
      by_cases hnil : bufs = []
      · subst hnil
        obtain rfl := Except.ok.inj hloop
        obtain ⟨rfl, -⟩ := Prod.mk.inj (Except.ok.inj hp)
        exact ⟨[], DescStream.nil, h.flush, rfl⟩
      · have hstart : Prepared cp trans.transId head
            { commit := st
              desc := none
              i := 0
              dataCnt := trans.dataCnt - (trans.bufQueue.length - bufs.length)
              checksum := EXT4_CRC32_INIT } [] false := ⟨rfl, h⟩
        have hleft : trans.dataCnt - (trans.bufQueue.length - bufs.length) = 0 + bufs.length := by
          omega
        have hprep := prepareBufs_spec hid hsub hlast hnil rfl hleft hstart hloop
        rw [List.nil_append, Prepared] at hprep
        cases hdesc : fin.desc with
        | none =>
            rw [hdesc] at hprep hp
            obtain ⟨hdone, hlaid⟩ := hprep
            obtain ⟨rfl, -⟩ := Prod.mk.inj (Except.ok.inj hp)
            exact ⟨[], hdone ▸ DescStream.nil, hlaid.flush, rfl⟩
        | some d =>
            rw [hdesc] at hprep hp
            obtain ⟨closed, chunk, infos, info, hdone, hopen, hkeys, hmid, hinfo⟩ := hprep
            obtain ⟨stream, hclosed, hlaid⟩ := hopen.stream
            obtain ⟨rfl, -⟩ := Prod.mk.inj (Except.ok.inj hp)
            refine ⟨_, ?_, hlaid.close.flush, rfl⟩
            rw [hdone]
            exact hclosed.snoc (hopen.tags.describes_last hkeys hmid hinfo)

/-! ## Revoke blocks -/

/-- The buffer of an open revoke block holds the records `lbas`. -/
structure RecordsIn (sb : JbdSb bs) (id : ℕ) (d : OpenRecord bs) (lbas : List ℕ) : Prop where
  header : HeaderIs d.block JBD_REVOKE_BLOCK id
  stored : StoredRecords sb d.block lbas
  ptr : d.ptr = REVOKE_HEADER_SIZE + lbas.length * revokeRecordLen sb
  space : d.tagTblSize + lbas.length * revokeRecordLen sb
    = bs - REVOKE_HEADER_SIZE - tailSize sb

/-- A revoke block just opened holds no records. -/
theorem recordsIn_nil {id : ℕ} {d : OpenRecord bs} (hid : id < 2 ^ 32)
    (hblock : d.block = setHeader (env.noread d.iblock) JBD_REVOKE_BLOCK id)
    (hptr : d.ptr = REVOKE_HEADER_SIZE)
    (hspace : d.tagTblSize = bs - REVOKE_HEADER_SIZE - tailSize sb) : RecordsIn sb id d [] := by
  have hbs : BHDR_SIZE ≤ bs := by have := sb.block_size; unfold BHDR_SIZE; omega
  refine ⟨?_, fun i hi => absurd hi (Nat.not_lt_zero _), by simpa using hptr, by simpa using hspace⟩
  rw [hblock]
  exact headerIs_setHeader _ hbs (by decide) hid

/-- A revoked block's number survives the width of a record. -/
theorem revokeRecord_mod {lba : ℕ} (hlba : FitsTag sb lba) :
    lba % 256 ^ revokeRecordLen sb = lba := by
  unfold FitsTag at hlba
  unfold revokeRecordLen
  split at hlba
  · next h64 =>
      rw [if_pos h64]
      exact Nat.mod_eq_of_lt hlba
  · next h64 =>
      rw [if_neg h64]
      exact Nat.mod_eq_of_lt hlba

/-- Writing one more record. -/
theorem RecordsIn.write {id lba : ℕ} {d : OpenRecord bs} {lbas : List ℕ}
    (h : RecordsIn sb id d lbas) (hlba : FitsTag sb lba)
    (hfit : revokeRecordLen sb ≤ d.tagTblSize) :
    RecordsIn sb id
      { d with
        block := putBE (revokeRecordLen sb) d.block d.ptr lba
        ptr := d.ptr + revokeRecordLen sb
        tagTblSize := d.tagTblSize - revokeRecordLen sb } (lbas ++ [lba]) := by
  have hbs := sb.block_size
  have htail := tailSize_le sb
  have hptr := h.ptr
  have hspace := h.space
  have hframe : ∀ i < d.ptr,
      get8 (putBE (revokeRecordLen sb) d.block d.ptr lba) i = get8 d.block i :=
    fun i hi => get8_patch_of_disjoint (Or.inl hi)
  unfold REVOKE_HEADER_SIZE at hptr hspace
  constructor
  · exact h.header.congr fun i hi => hframe i (by unfold BHDR_SIZE at hi; omega)
  · refine (h.stored.congr fun i _ hi => hframe i (by unfold REVOKE_HEADER_SIZE at hi; omega)).snoc
      ?_
    rw [← h.ptr, getBE_putBE (by omega), revokeRecord_mod hlba]
  · rw [List.length_append, List.length_singleton, Nat.add_mul, Nat.one_mul]
    dsimp only [REVOKE_HEADER_SIZE]
    omega
  · rw [List.length_append, List.length_singleton, Nat.add_mul, Nat.one_mul]
    dsimp only [REVOKE_HEADER_SIZE]
    omega

/-- A closed revoke block yields its records. -/
theorem RecordsIn.revokes {id : ℕ} {d : OpenRecord bs} {lbas : List ℕ}
    (h : RecordsIn sb id d lbas) :
    RevokesBlocks sb id lbas
      (jbdMetaCsumSet sb (set32 d.block 12 (bs - d.tagTblSize - tailSize sb))) := by
  have hbs := sb.block_size
  have hbs' := sb.block_size_lt
  have htail := tailSize_le sb
  have hspace := h.space
  unfold REVOKE_HEADER_SIZE at hspace
  have hcount : bs - d.tagTblSize - tailSize sb
      = REVOKE_HEADER_SIZE + lbas.length * revokeRecordLen sb := by
    unfold REVOKE_HEADER_SIZE
    omega
  have hframe : ∀ i, i < 12 ∨ 16 ≤ i → i < bs - tailSize sb →
      get8 (jbdMetaCsumSet sb (set32 d.block 12 (bs - d.tagTblSize - tailSize sb))) i
        = get8 d.block i := fun i hi hlt => by
    rw [get8_jbdMetaCsumSet hlt]
    exact get8_patch_of_disjoint (by omega)
  refine ⟨h.header.congr fun i hi => hframe i (Or.inl hi) (by unfold BHDR_SIZE at hi; omega),
    jbdVerifyMetaCsum_set sb _, revokeEntries_of_stored (h.stored.congr fun i hlo hhi => ?_) ?_ ?_⟩
  · unfold REVOKE_HEADER_SIZE at hlo hhi
    exact hframe i (Or.inr hlo) (by omega)
  · rw [get32, getBE_congr fun i _ hi => get8_jbdMetaCsumSet (by omega), set32,
      getBE_putBE (by omega), hcount]
    unfold REVOKE_HEADER_SIZE at hcount ⊢
    exact Nat.mod_eq_of_lt (by omega)
  · unfold REVOKE_HEADER_SIZE
    omega

/-- A revoke block in its buffer, with the records `closed` in earlier blocks, behind the run
    `before`. -/
structure Revoking (cp : Checkpoint sb σ) (id head : ℕ) (st : CommitState bs σ) (d : OpenRecord bs)
    (before : List (Buf bs)) (closed chunk : List ℕ) : Prop where
  stream : ∃ stream, RevokeStream sb id closed stream ∧
    LaidOpen cp head st d (before ++ stream) []
  records : RecordsIn sb id d chunk
  flushed : st.wb = []

/-- Placing a record that has room. -/
theorem placeRevoke_fit {id head lba tries : ℕ} {st st' : CommitState bs σ}
    {d d' : OpenRecord bs} {before : List (Buf bs)} {closed chunk : List ℕ}
    (hlba : FitsTag sb lba) (h : Revoking cp id head st d before closed chunk)
    (hfit : revokeRecordLen sb ≤ d.tagTblSize)
    (hp : placeRevoke cp env id lba (tries + 1) (some d) st = .ok (d', st')) :
    Revoking cp id head st' d' before closed (chunk ++ [lba]) := by
  rw [placeRevoke, if_neg (by omega)] at hp
  obtain ⟨rfl, rfl⟩ := Prod.mk.inj (Except.ok.inj hp)
  obtain ⟨stream, hclosed, hlaid⟩ := h.stream
  exact ⟨⟨stream, hclosed, hlaid.write _ _ _⟩, h.records.write hlba hfit, h.flushed⟩

/-- Placing a record in a new revoke block. -/
theorem placeRevoke_none {id head lba tries : ℕ} {st st' : CommitState bs σ} {d : OpenRecord bs}
    {before stream : List (Buf bs)} {done : List ℕ} (hid : id < 2 ^ 32) (hlba : FitsTag sb lba)
    (hdone : RevokeStream sb id done stream) (h : Laid cp head st (before ++ stream))
    (hwb : st.wb = []) (hp : placeRevoke cp env id lba (tries + 2) none st = .ok (d, st')) :
    Revoking cp id head st' d before done [lba] := by
  rw [placeRevoke] at hp
  cases ho : openRecord cp env JBD_REVOKE_BLOCK id REVOKE_HEADER_SIZE st with
  | error e => simp [ho] at hp
  | ok r =>
      obtain ⟨d₀, st₀⟩ := r
      rw [ho] at hp
      dsimp only at hp
      obtain ⟨hopen, hd, hptr, hspace, hsame⟩ := openRecord_spec h ho
      have hrecords : RecordsIn sb id d₀ [] := recordsIn_nil hid hd hptr hspace
      have hfit : revokeRecordLen sb ≤ d₀.tagTblSize := by
        have hbs := sb.block_size
        have htail := tailSize_le sb
        have hlen : revokeRecordLen sb ≤ 8 := by unfold revokeRecordLen; split <;> omega
        rw [hspace]
        unfold REVOKE_HEADER_SIZE
        omega
      exact placeRevoke_fit hlba ⟨⟨stream, hdone, hopen⟩, hrecords, hsame.trans hwb⟩ hfit hp

/-- The loop over the revoke tree. -/
theorem prepareRevokes_spec {id head : ℕ} {lbas : List ℕ} {d : OpenRecord bs}
    {desc : Option (OpenRecord bs)} {st st' : CommitState bs σ} {before : List (Buf bs)}
    {closed chunk : List ℕ} (hid : id < 2 ^ 32) (hlbas : ∀ lba ∈ lbas, FitsTag sb lba)
    (h : Revoking cp id head st d before closed chunk)
    (hp : prepareRevokes cp env id lbas (some d) st = .ok (desc, st')) :
    ∃ d' closed' chunk', desc = some d' ∧ closed ++ chunk ++ lbas = closed' ++ chunk' ∧
      Revoking cp id head st' d' before closed' chunk' := by
  induction lbas generalizing d st closed chunk with
  | nil =>
      obtain ⟨rfl, rfl⟩ := Prod.mk.inj (Except.ok.inj hp)
      exact ⟨d, closed, chunk, rfl, by simp, h⟩
  | cons lba rest ih =>
      have hlba : FitsTag sb lba := hlbas lba (List.mem_cons_self ..)
      have hrest : ∀ l ∈ rest, FitsTag sb l := fun l hl => hlbas l (List.mem_cons_of_mem _ hl)
      rw [prepareRevokes] at hp
      split at hp
      · cases hp
      · next d₁ st₁ hplace =>
          by_cases hfit : revokeRecordLen sb ≤ d.tagTblSize
          · obtain ⟨d', closed', chunk', hdesc, happ, hnew⟩ :=
              ih hrest (placeRevoke_fit hlba h hfit hplace) hp
            exact ⟨d', closed', chunk', hdesc, by rw [← happ]; simp, hnew⟩
          · -- the block is full: it is closed and the record opens the next one
            rw [placeRevoke, if_pos (by omega)] at hplace
            obtain ⟨stream, hclosed, hlaid⟩ := h.stream
            have hclose : Laid cp head (closeRevoke sb d st) (before ++ (stream ++
                [jbdMetaCsumSet sb (set32 d.block 12 (bs - d.tagTblSize - tailSize sb))])) := by
              rw [← List.append_assoc]
              exact (hlaid.write (set32 d.block 12 (bs - d.tagTblSize - tailSize sb)) d.ptr
                d.tagTblSize).close
            obtain ⟨d', closed', chunk', hdesc, happ, hnew⟩ := ih hrest
              (placeRevoke_none hid hlba (hclosed.snoc h.records.revokes) hclose h.flushed hplace)
              hp
            exact ⟨d', closed', chunk', hdesc, by rw [← happ]; simp, hnew⟩

/-- `jbd_journal_prepare_revoke` lays down the revoke part of the transaction. -/
theorem jbdJournalPrepareRevoke_spec {trans : JbdTrans bs} {head : ℕ} {st st' : CommitState bs σ}
    {before : List (Buf bs)} (hid : trans.transId < 2 ^ 32)
    (hlbas : ∀ lba ∈ trans.revokeRoot, FitsTag sb lba) (h : Laid cp head st before)
    (hwb : st.wb = []) (hp : jbdJournalPrepareRevoke cp env trans st = .ok st') :
    ∃ stream, RevokeStream sb trans.transId trans.revokeRoot stream ∧
      Laid cp head st' (before ++ stream) ∧ st'.wb = [] := by
  unfold jbdJournalPrepareRevoke at hp
  cases hroot : trans.revokeRoot with
  | nil =>
      rw [hroot, prepareRevokes] at hp
      obtain rfl := Except.ok.inj hp
      exact ⟨[], RevokeStream.nil, by simpa using h, hwb⟩
  | cons lba rest =>
      rw [hroot] at hp hlbas
      rw [prepareRevokes] at hp
      cases hplace : placeRevoke cp env trans.transId lba 3 none st with
      | error e => simp [hplace] at hp
      | ok r =>
          obtain ⟨d, st₁⟩ := r
          rw [hplace] at hp
          dsimp only at hp
          have hfirst : Revoking cp trans.transId head st₁ d before [] [lba] :=
            placeRevoke_none hid (hlbas lba (List.mem_cons_self ..)) RevokeStream.nil
              (by simpa using h) hwb hplace
          have hrest : ∀ l ∈ rest, FitsTag sb l := fun l hl => hlbas l (List.mem_cons_of_mem _ hl)
          cases hloop : prepareRevokes cp env trans.transId rest (some d) st₁ with
          | error e => simp [hloop] at hp
          | ok r =>
              obtain ⟨desc, st₂⟩ := r
              obtain ⟨d', closed, chunk, rfl, happ, hopen⟩ :=
                prepareRevokes_spec hid hrest hfirst hloop
              simp only [hloop] at hp
              obtain rfl := Except.ok.inj hp
              obtain ⟨stream, hclosed, hlaid⟩ := hopen.stream
              refine ⟨stream ++ [jbdMetaCsumSet sb (set32 d'.block 12
                (bs - d'.tagTblSize - tailSize sb))], ?_, ?_, hopen.flushed⟩
              · rw [show lba :: rest = closed ++ chunk by simpa using happ]
                exact hclosed.snoc hopen.records.revokes
              · rw [← List.append_assoc]
                exact (hlaid.write (set32 d'.block 12 (bs - d'.tagTblSize - tailSize sb)) d'.ptr
                  d'.tagTblSize).close

/-! ## The whole transaction -/

/-- Where a commit starts: a log behind the journal superblock, nothing allocated, the head where
    the newest committed transaction ends, and no payload waiting. -/
structure CommitStart (cp : Checkpoint sb σ) (st : CommitState bs σ) : Prop where
  first_pos : 0 < sb.first
  last : InLog sb st.journal.last
  start : InLog sb st.journal.start
  committed : cp.committedEnd st.journal.rest = st.journal.last
  startIblock : st.startIblock = 0
  allocBlocks : st.allocBlocks = 0
  wb : st.wb = []

theorem CommitStart.laid {st : CommitState bs σ} (h : CommitStart cp st) :
    Laid cp st.journal.last st [] := by
  refine ⟨⟨h.last, ?_, h.committed, ?_, ?_⟩, ?_, onLog_nil, Or.inl ⟨h.startIblock, rfl⟩⟩
  · rw [h.allocBlocks]
    rfl
  · -- a tail on the head is a whole round ahead of it
    by_cases hsame : st.journal.start = st.journal.last
    · refine ⟨logSize sb, ?_, le_rfl, ?_⟩
      · rw [h.allocBlocks]
        have := sb.first_lt
        unfold logSize
        omega
      · rw [hsame]
        exact (Circular.iterate_size h.last).symm
    · refine ⟨Circular.dist sb.first sb.maxlen st.journal.last st.journal.start, ?_,
        (Circular.dist_lt h.last).le, (Circular.iterate_dist h.last h.start).symm⟩
      rw [h.allocBlocks]
      by_contra hzero
      have hdist := Circular.iterate_dist h.last h.start
      rw [Nat.le_zero.mp (Nat.not_lt.mp hzero)] at hdist
      exact hsame hdist.symm
  · rw [h.wb]
    simp
  · simpa using h.allocBlocks

/-- `jbd_trans_write_commit_block` ends the run. -/
theorem jbdTransWriteCommitBlock_spec {id head : ℕ} {dataCsum : UInt32}
    {st st' : CommitState bs σ} {stream : List (Buf bs)} (hid : id < 2 ^ 32)
    (h : Laid cp head st stream) (hwb : st.wb = [])
    (hp : jbdTransWriteCommitBlock cp env id dataCsum st = .ok st') :
    ∃ c, Commits sb id c ∧ OnLog sb st'.log head (stream ++ [c]) ∧
      st'.allocBlocks = stream.length + 1 ∧ Placing cp head st' ∧
      st'.startIblock = st.startIblock := by
  unfold jbdTransWriteCommitBlock at hp
  cases ha : jbdJournalAllocBlock cp st with
  | mk iblock st₁ =>
      rw [ha] at hp
      dsimp only at hp
      split at hp
      · cases hp
      · next hne =>
          obtain ⟨hib, hplacing, j, rfl⟩ := jbdJournalAllocBlock_spec h.placing ha hne
          obtain rfl := Except.ok.inj hp
          have hview : st.view = st.log := by rw [CommitState.view, hwb, Writes.apply_nil]
          have honlog := h.onLog
          have hlt := h.placing.allocBlocks_lt
          rw [hview] at honlog
          rw [h.alloc] at hib hlt
          refine ⟨commitBlock sb (env.noread iblock) id dataCsum.toNat,
            ⟨headerIs_commitBlock sb _ _ hid, jbdVerifyCommitCsum_commitBlock sb _ _ _⟩, ?_, ?_, ?_,
            rfl⟩
          · dsimp only
            rw [hib]
            exact honlog.snoc h.placing.inLog hlt
          · exact congrArg (· + 1) h.alloc
          · exact ⟨hplacing.inLog, hplacing.last, hplacing.committed, hplacing.tail,
              hplacing.pending⟩

/-- The run of blocks of a successful commit, and where it leaves the head and the tail. -/
theorem writeTrans_laid {trans : JbdTrans bs} {st st' : CommitState bs σ}
    (hid : trans.transId < 2 ^ 32) (hcnt : trans.dataCnt = trans.bufQueue.length)
    (hblocks : ∀ b ∈ trans.bufQueue, FitsTag sb b.lba)
    (hlbas : ∀ lba ∈ trans.revokeRoot, FitsTag sb lba) (hstart : CommitStart cp st)
    (hw : writeTrans cp env trans st = .ok st') :
    ∃ stream, TransStream sb trans.transId (loggedBlocks trans.bufQueue) trans.revokeRoot stream ∧
      OnLog sb st'.log st.journal.last stream ∧ st'.allocBlocks = stream.length ∧
      Placing cp st.journal.last st' ∧
      (loggedBlocks trans.bufQueue ≠ [] ∨ trans.revokeRoot ≠ [] →
        st'.startIblock = st.journal.last ∧ st.journal.last ≠ 0) := by
  unfold writeTrans at hw
  split at hw
  · cases hw
  · next st₁ dataCsum hprep =>
      obtain ⟨s₁, hdesc, hlaid₁, hwb₁⟩ := jbdJournalPrepare_spec hid hcnt hblocks hstart.laid hprep
      split at hw
      · cases hw
      · next st₂ hrev =>
          obtain ⟨s₂, hrevoke, hlaid₂, hwb₂⟩ :=
            jbdJournalPrepareRevoke_spec hid hlbas hlaid₁ hwb₁ hrev
          obtain ⟨c, hcommit, honlog, halloc, hplacing, hsame⟩ :=
            jbdTransWriteCommitBlock_spec hid hlaid₂ hwb₂ hw
          have hlen : st'.allocBlocks = (s₁ ++ s₂ ++ [c]).length := by
            simpa [Nat.add_assoc] using halloc
          refine ⟨s₁ ++ s₂ ++ [c], ⟨s₁, s₂, c, hdesc, hrevoke, hcommit, rfl⟩, honlog, hlen,
            hplacing, fun hsome => ?_⟩
          rw [hsame]
          rcases hlaid₂.begun with ⟨_, hnil⟩ | hbegun
          · -- something was laid down, since there was something to log
            obtain ⟨rfl, rfl⟩ := List.append_eq_nil_iff.mp hnil
            rcases hsome with hdata | hrevs
            · exact absurd hdesc.eq_nil hdata
            · exact absurd hrevoke.eq_nil hrevs
          · exact hbegun

/-- **A successful commit lays down the run of the transaction**, from the head of the log on, and
    records where it starts. -/
theorem writeTrans_spec {trans : JbdTrans bs} {st st' : CommitState bs σ}
    (hid : trans.transId < 2 ^ 32) (hcnt : trans.dataCnt = trans.bufQueue.length)
    (hblocks : ∀ b ∈ trans.bufQueue, FitsTag sb b.lba)
    (hlbas : ∀ lba ∈ trans.revokeRoot, FitsTag sb lba) (hstart : CommitStart cp st)
    (hw : writeTrans cp env trans st = .ok st') :
    ∃ stream, TransStream sb trans.transId (loggedBlocks trans.bufQueue) trans.revokeRoot stream ∧
      OnLog sb st'.log st.journal.last stream ∧ stream.length < logSize sb ∧
      st'.journal.last = (adv sb)^[stream.length] st.journal.last ∧
      (loggedBlocks trans.bufQueue ≠ [] ∨ trans.revokeRoot ≠ [] →
        st'.startIblock = st.journal.last ∧ st.journal.last ≠ 0) := by
  obtain ⟨s, hs, honlog, hlen, hplacing, hbegun⟩ :=
    writeTrans_laid hid hcnt hblocks hlbas hstart hw
  refine ⟨s, hs, honlog, ?_, ?_, hbegun⟩
  · rw [← hlen]
    exact hplacing.allocBlocks_lt
  · rw [← hlen]
    exact hplacing.last

end Jbd
