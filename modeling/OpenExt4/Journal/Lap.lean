import Mathlib.Data.List.Iterate
import Mathlib.Logic.Relation
import OpenExt4.Journal.Bounds

set_option autoImplicit false

/-! # Once round the log

`jbd_iterate_log` goes round the log until a block does not continue it, or until it is back at the
block it began at. The second test looks at the blocks between two rounds of the loop only: the tags
of a descriptor block may carry the walk past the start, and then nothing but the contents of the
log can end it. As long as they do not, a pass fetches every block of the log once at most. -/

namespace Jbd

open Bytes

variable {bs : ℕ} {σ : Type}

/-- The geometry `jbd_get_fs` lets through, for a journal file of `inodeSize` bytes on a file
    system with the block size of the journal. -/
def jbdGeometryOk (sb : JbdSb bs) (tail : JbdTail) (inodeSize : ℕ) : Prop :=
  ¬ (sb.maxlen = 0 ∨ sb.maxlen > inodeSize / bs ∨ sb.first ≥ sb.maxlen ∨ tail.start ≥ sb.maxlen)

instance (sb : JbdSb bs) (tail : JbdTail) (inodeSize : ℕ) :
    Decidable (jbdGeometryOk sb tail inodeSize) := inferInstanceAs (Decidable (¬ _))

/-! ## The blocks a pass fetches -/

/-- The access `io` with the log blocks it has fetched put on record. -/
def traced (io : LogAccess bs σ) : LogAccess bs (List ℕ × σ) where
  getHeader := fun action p s =>
    ((io.getHeader action p s.2).1, (s.1 ++ [p], (io.getHeader action p s.2).2))
  getData := fun p s => ((io.getData p s.2).1, (s.1 ++ [p], (io.getData p s.2).2))
  replay := fun block jdata isEscape s =>
    ((io.replay block jdata isEscape s.2).1, (s.1, (io.replay block jdata isEscape s.2).2))
  allocRevokeEntry := fun s => ((io.allocRevokeEntry s.2).1, (s.1, (io.allocRevokeEntry s.2).2))

/-- The state of recovery with nothing on record yet. -/
def RecoverInfo.traced (info : RecoverInfo σ) : RecoverInfo (List ℕ × σ) :=
  { info with env := ([], info.env) }

variable {io : LogAccess bs σ} {sb : JbdSb bs} {action : Action}

/-- The data blocks behind `p` for `n` tags. -/
def behind (sb : JbdSb bs) (p n : ℕ) : List ℕ := List.iterate (adv sb) (adv sb p) n

theorem cons_behind (sb : JbdSb bs) (p n : ℕ) :
    p :: behind sb p n = List.iterate (adv sb) p (n + 1) := rfl

theorem iterate_sublist {α : Type} (f : α → α) (a : α) {n k : ℕ} (h : n ≤ k) :
    (List.iterate f a n).Sublist (List.iterate f a k) := by
  obtain ⟨d, rfl⟩ := Nat.exists_eq_add_of_le h
  rw [List.iterate_add]
  exact List.sublist_append_left _ _

variable (io sb) in
/-- The replay of one tag goes one block on and fetches that block at most. -/
theorem jbdReplayBlockTags_traced (id : ℕ) (tag : TagInfo) (p : ℕ)
    (info : RecoverInfo (List ℕ × σ)) :
    (jbdReplayBlockTags (traced io) sb id tag (p, info)).1 = adv sb p ∧
      ∃ fetched, fetched.Sublist [adv sb p] ∧
        (jbdReplayBlockTags (traced io) sb id tag (p, info)).2.env.1 = info.env.1 ++ fetched := by
  simp only [jbdReplayBlockTags, wrap_succ, traced]
  split
  · exact ⟨rfl, [], List.nil_sublist _, (List.append_nil _).symm⟩
  · cases (io.getData (adv sb p) info.env.2).1 with
    | error e => exact ⟨rfl, [adv sb p], List.Sublist.refl _, rfl⟩
    | ok jdata => exact ⟨rfl, [adv sb p], List.Sublist.refl _, rfl⟩

/-- Replaying the tags of a descriptor block fetches data blocks behind it, each once at most. -/
theorem foldl_jbdReplayBlockTags_traced (id : ℕ) (tags : List TagInfo) (p : ℕ)
    (info : RecoverInfo (List ℕ × σ)) :
    (tags.foldl (fun st t => jbdReplayBlockTags (traced io) sb id t st) (p, info)).1
        = (adv sb)^[tags.length] p ∧
      ∃ fetched, fetched.Sublist (behind sb p tags.length) ∧
        (tags.foldl (fun st t => jbdReplayBlockTags (traced io) sb id t st) (p, info)).2.env.1
          = info.env.1 ++ fetched := by
  induction tags generalizing p info with
  | nil => exact ⟨rfl, [], List.nil_sublist _, (List.append_nil _).symm⟩
  | cons t rest ih =>
      obtain ⟨hpos, first, hfirst, henv⟩ :=
        jbdReplayBlockTags_traced io sb id t p info
      rw [List.foldl_cons]
      generalize jbdReplayBlockTags (traced io) sb id t (p, info) = st at hpos henv
      obtain ⟨q, info'⟩ := st
      dsimp only at hpos henv
      subst hpos
      obtain ⟨hpos', more, hmore, henv'⟩ := ih (adv sb p) info'
      refine ⟨hpos', first ++ more, hfirst.append hmore, ?_⟩
      rw [henv', henv, List.append_assoc]

/-- The revoke tree is built without fetching anything. -/
theorem jbdBuildRevokeTree_traced (header : Buf bs) (info : RecoverInfo (List ℕ × σ)) :
    (jbdBuildRevokeTree (traced io) sb header info).env.1 = info.env.1 := by
  unfold jbdBuildRevokeTree
  generalize revokeEntries sb header = entries
  induction entries generalizing info with
  | nil => rfl
  | cons entry rest ih =>
      rw [List.foldl_cons, ih]
      unfold jbdAddRevokeBlockTags
      split
      · rfl
      · simp only [traced]
        cases (io.allocRevokeEntry info.env.2).1 <;> rfl

/-- The number of data blocks a header block of the log is taken to have behind it. -/
def dataBlocks (sb : JbdSb bs) (header : Buf bs) : ℕ :=
  if get32 header 4 = JBD_DESCRIPTOR_BLOCK ∧ jbdVerifyMetaCsum sb header = true then
    (descriptorTags sb header).length
  else 0

/-- A header block that is no sound descriptor block is left where it is. -/
theorem jbdProcessBlock_traced_other {header : Buf bs}
    (h : ¬ (get32 header 4 = JBD_DESCRIPTOR_BLOCK ∧ jbdVerifyMetaCsum sb header = true))
    (p id : ℕ) (info : RecoverInfo (List ℕ × σ)) :
    (jbdProcessBlock (traced io) sb action header p id info).thisBlock = p ∧
      (jbdProcessBlock (traced io) sb action header p id info).info.env.1 = info.env.1 := by
  by_cases hdesc : get32 header 4 = JBD_DESCRIPTOR_BLOCK
  · have hcsum : jbdVerifyMetaCsum sb header = false := by simpa [hdesc] using h
    rw [jbdProcessBlock, if_pos hdesc, hcsum, Bool.not_false, if_pos rfl]
    exact ⟨rfl, rfl⟩
  rw [jbdProcessBlock, if_neg hdesc]
  split
  · split
    · exact ⟨rfl, rfl⟩
    · refine ⟨rfl, ?_⟩
      split <;> rfl
  · split
    · split
      · exact ⟨rfl, rfl⟩
      · split
        · exact ⟨rfl, rfl⟩
        · split
          · exact ⟨rfl, jbdBuildRevokeTree_traced header _⟩
          · exact ⟨rfl, rfl⟩
    · exact ⟨rfl, rfl⟩

variable (io sb action) in
/-- Working on a header block goes past its data blocks and fetches some of these, in order. -/
theorem jbdProcessBlock_traced (header : Buf bs) (p id : ℕ) (info : RecoverInfo (List ℕ × σ)) :
    (jbdProcessBlock (traced io) sb action header p id info).thisBlock
        = (adv sb)^[dataBlocks sb header] p ∧
      ∃ fetched, fetched.Sublist (behind sb p (dataBlocks sb header)) ∧
        (jbdProcessBlock (traced io) sb action header p id info).info.env.1
          = info.env.1 ++ fetched := by
  by_cases hdesc : get32 header 4 = JBD_DESCRIPTOR_BLOCK ∧ jbdVerifyMetaCsum sb header = true
  · have hblocks : dataBlocks sb header = (descriptorTags sb header).length := if_pos hdesc
    rw [jbdProcessBlock, if_pos hdesc.1, hdesc.2, Bool.not_true, if_neg Bool.false_ne_true, hblocks]
    by_cases hrecover : action = .recover
    · rw [if_pos hrecover, jbdIterateBlockTable_eq_foldl]
      exact foldl_jbdReplayBlockTags_traced id _ p info
    · rw [if_neg hrecover, jbdIterateBlockTable_eq_foldl]
      exact ⟨foldl_jbdDisplayBlockTags sb _ p, [], List.nil_sublist _,
        (List.append_nil _).symm⟩
  · have hblocks : dataBlocks sb header = 0 := if_neg hdesc
    obtain ⟨hpos, henv⟩ := jbdProcessBlock_traced_other hdesc p id info
    rw [hblocks, hpos, henv]
    exact ⟨rfl, [], List.nil_sublist _, (List.append_nil _).symm⟩

/-! ## Rounds of the loop -/

/-- The variables of the loop between two of its rounds. -/
structure LoopState (σ : Type) where
  thisBlock : ℕ
  thisTransId : ℕ
  info : RecoverInfo σ

/-- A round from `st` works on `header`, a block with the magic and the expected id. -/
structure WorksOn (io : LogAccess bs σ) (action : Action) (st : LoopState σ) (header : Buf bs) :
    Prop where
  inPass : ¬ (action ≠ .scan ∧ transIdDiff st.thisTransId st.info.lastTransId > 0)
  fetched : (io.getHeader action st.thisBlock st.info.env).1 = .ok header
  magic : get32 header 0 = JBD_MAGIC_NUMBER
  sequence : get32 header 8 = st.thisTransId

/-- The state of recovery once the header block is fetched. -/
def afterHeader (io : LogAccess bs σ) (action : Action) (st : LoopState σ) : RecoverInfo σ :=
  { st.info with env := (io.getHeader action st.thisBlock st.info.env).2 }

/-- What a round from `st` makes of `header`. -/
def processed (io : LogAccess bs σ) (sb : JbdSb bs) (action : Action) (st : LoopState σ)
    (header : Buf bs) : BlockStep σ :=
  jbdProcessBlock io sb action header st.thisBlock st.thisTransId (afterHeader io action st)

/-- A round of the loop that is not the last one leads from `st` to `next`. -/
structure Round (io : LogAccess bs σ) (sb : JbdSb bs) (action : Action) (startBlock : ℕ)
    (st next : LoopState σ) (header : Buf bs) : Prop where
  works : WorksOn io action st header
  goesOn : (processed io sb action st header).logEnd = false
  thisBlock : next.thisBlock = adv sb (processed io sb action st header).thisBlock
  thisTransId : next.thisTransId = (processed io sb action st header).thisTransId
  info : next.info = (processed io sb action st header).info
  notBack : next.thisBlock ≠ startBlock

/-- The rest of the loop. -/
def loopFrom (io : LogAccess bs σ) (sb : JbdSb bs) (action : Action) (startBlock fuel : ℕ)
    (st : LoopState σ) : Option (IterateResult σ) :=
  jbdIterateLogLoop io sb action startBlock fuel st.thisBlock st.thisTransId st.info

theorem exists_loopFrom (io : LogAccess bs σ) (sb : JbdSb bs) (action : Action)
    (startBlock fuel p id : ℕ) (info : RecoverInfo σ) :
    ∃ st : LoopState σ, st.thisBlock = p ∧ st.thisTransId = id ∧ st.info = info ∧
      jbdIterateLogLoop io sb action startBlock fuel p id info
        = loopFrom io sb action startBlock fuel st :=
  ⟨⟨p, id, info⟩, rfl, rfl, rfl, rfl⟩

theorem exists_result (r : Option Errno) (id : ℕ) (info : RecoverInfo σ) :
    ∃ res : IterateResult σ, res.info = info ∧ some (IterateResult.mk r id info) = some res :=
  ⟨_, rfl, rfl⟩

/-- The last round, from `st`, leaves the state of recovery `info`. -/
def LastRound (io : LogAccess bs σ) (sb : JbdSb bs) (action : Action) (st : LoopState σ)
    (info : RecoverInfo σ) : Prop :=
  info = st.info ∨
    info = afterHeader io action st ∨
    ∃ header, WorksOn io action st header ∧ info = (processed io sb action st header).info

/-- **The loop goes round by round.** -/
theorem loopFrom_round (io : LogAccess bs σ) (sb : JbdSb bs) (action : Action)
    (startBlock fuel : ℕ) (st : LoopState σ) :
    (∃ next header, Round io sb action startBlock st next header ∧
      loopFrom io sb action startBlock (fuel + 1) st
        = loopFrom io sb action startBlock fuel next) ∨
    ∃ res, LastRound io sb action st res.info ∧
      loopFrom io sb action startBlock (fuel + 1) st = some res := by
  rw [loopFrom, jbdIterateLogLoop]
  split
  · exact .inr ⟨_, .inl rfl, rfl⟩
  · next hpass =>
      split
      · next heq => exact .inr ⟨_, .inr (.inl (by rw [afterHeader, heq])), rfl⟩
      · next header env heq =>
          have henv : env = (io.getHeader action st.thisBlock st.info.env).2 := by rw [heq]
          have hheader : (io.getHeader action st.thisBlock st.info.env).1 = .ok header := by
            rw [heq]
          subst henv
          split
          · exact .inr ⟨_, .inr (.inl rfl), rfl⟩
          · next hmagic =>
              split
              · exact .inr ⟨_, .inr (.inl rfl), rfl⟩
              · next hseq =>
                  have hworks : WorksOn io action st header :=
                    ⟨hpass, hheader, not_not.mp hmagic, not_not.mp hseq⟩
                  have hstep : jbdProcessBlock io sb action header st.thisBlock st.thisTransId
                      { st.info with env := (io.getHeader action st.thisBlock st.info.env).2 }
                      = processed io sb action st header := rfl
                  dsimp only
                  rw [hstep, wrap_succ]
                  by_cases hend : (processed io sb action st header).logEnd = true ∨
                      adv sb (processed io sb action st header).thisBlock = startBlock
                  · rw [if_pos hend]
                    obtain ⟨res, hinfo, hres⟩ := exists_result (processed io sb action st header).r
                      (processed io sb action st header).thisTransId
                      (processed io sb action st header).info
                    exact .inr ⟨res, .inr (.inr ⟨header, hworks, hinfo⟩), hres⟩
                  · rw [if_neg hend]
                    rw [not_or, Bool.not_eq_true] at hend
                    obtain ⟨next, hblock, hid, hinfo, hnext⟩ := exists_loopFrom io sb action
                      startBlock fuel (adv sb (processed io sb action st header).thisBlock)
                      (processed io sb action st header).thisTransId
                      (processed io sb action st header).info
                    exact .inl ⟨next, header,
                      ⟨hworks, hend.1, hblock, hid, hinfo, hblock ▸ hend.2⟩, hnext⟩

/-! ## Along the log -/

/-- `m` blocks on from where the walk began, with no block fetched but these, each once at most. -/
structure OnLap (sb : JbdSb bs) (startBlock m : ℕ) (st : LoopState (List ℕ × σ)) : Prop where
  position : st.thisBlock = (adv sb)^[m] startBlock
  fetched : st.info.env.1.Sublist (List.iterate (adv sb) startBlock m)

variable {startBlock m : ℕ} {st next : LoopState (List ℕ × σ)} {header : Buf bs}

/-- A longer way along the log. -/
theorem OnLap.append {l : List ℕ} {n : ℕ} (h : OnLap sb startBlock m st)
    (hl : l.Sublist (List.iterate (adv sb) st.thisBlock n)) :
    (st.info.env.1 ++ l).Sublist (List.iterate (adv sb) startBlock (m + n)) := by
  rw [List.iterate_add, ← h.position]
  exact h.fetched.append hl

theorem afterHeader_traced (st : LoopState (List ℕ × σ)) :
    (afterHeader (traced io) action st).env.1 = st.info.env.1 ++ [st.thisBlock] := rfl

variable (io sb action) in
/-- The header block itself is fetched, then data blocks behind it. -/
theorem processed_traced (st : LoopState (List ℕ × σ)) (header : Buf bs) :
    (processed (traced io) sb action st header).thisBlock
        = (adv sb)^[dataBlocks sb header] st.thisBlock ∧
      ∃ l, l.Sublist (List.iterate (adv sb) st.thisBlock (dataBlocks sb header + 1)) ∧
        (processed (traced io) sb action st header).info.env.1 = st.info.env.1 ++ l := by
  obtain ⟨hpos, more, hmore, henv⟩ := jbdProcessBlock_traced io sb action header st.thisBlock
    st.thisTransId (afterHeader (traced io) action st)
  rw [processed, hpos, henv, afterHeader_traced, ← cons_behind]
  exact ⟨rfl, st.thisBlock :: more, hmore.cons_cons _, (List.append_cons ..).symm⟩

/-- A round goes on behind the data blocks of the block it works on. -/
theorem Round.onLap (h : Round (traced io) sb action startBlock st next header)
    (hlap : OnLap sb startBlock m st) :
    OnLap sb startBlock (m + (dataBlocks sb header + 1)) next := by
  obtain ⟨hpos, l, hl, henv⟩ := processed_traced io sb action st header
  constructor
  · rw [h.thisBlock, hpos, ← Function.iterate_succ_apply' (adv sb), hlap.position,
      ← Function.iterate_add_apply, Nat.add_comm]
  · rw [h.info, henv]
    exact hlap.append hl

/-- The last round fetches no block beyond the data blocks of the block it works on. -/
theorem LastRound.fetched {info : RecoverInfo (List ℕ × σ)}
    (h : LastRound (traced io) sb action st info) (hlap : OnLap sb startBlock m st) :
    ∃ n, (n = 0 ∨ ∃ header, WorksOn (traced io) action st header ∧ n = dataBlocks sb header) ∧
      info.env.1.Sublist (List.iterate (adv sb) startBlock (m + (n + 1))) := by
  rcases h with rfl | rfl | ⟨header, hworks, rfl⟩
  · refine ⟨0, .inl rfl, ?_⟩
    rw [← List.append_nil st.info.env.1]
    exact hlap.append (List.nil_sublist _)
  · exact ⟨0, .inl rfl, hlap.append (List.Sublist.refl [st.thisBlock])⟩
  · obtain ⟨-, l, hl, henv⟩ := processed_traced io sb action st header
    refine ⟨dataBlocks sb header, .inr ⟨header, hworks, rfl⟩, ?_⟩
    rw [henv]
    exact hlap.append hl

/-! ## Inside the journal -/

theorem adv_lt {p : ℕ} (h : p < sb.maxlen) : adv sb p < sb.maxlen := by
  have hfirst := sb.first_lt
  unfold adv Circular.next
  split <;> omega

theorem iterate_adv_lt {p : ℕ} (h : p < sb.maxlen) (k : ℕ) : (adv sb)^[k] p < sb.maxlen := by
  induction k with
  | zero => exact h
  | succ k ih =>
      rw [Function.iterate_succ_apply']
      exact adv_lt ih

/-- The walk along the log meets blocks of the journal only. -/
theorem mem_lt_of_sublist {l : List ℕ} {p n : ℕ} (hp : p < sb.maxlen)
    (hl : l.Sublist (List.iterate (adv sb) p n)) : ∀ q ∈ l, q < sb.maxlen := by
  intro q hq
  obtain ⟨k, -, rfl⟩ := List.mem_iterate.mp (hl.subset hq)
  exact iterate_adv_lt hp k

/-- The state the loop starts in. -/
def loopStart (tail : JbdTail) (action : Action) (info : RecoverInfo σ) : LoopState σ :=
  ⟨tail.start, tail.sequence,
    if action = .scan then { info with transCnt := 0, revokeBlockCnt := 0 } else info⟩

/-- A state the walk comes to between two rounds. -/
def Reached (io : LogAccess bs σ) (sb : JbdSb bs) (tail : JbdTail) (action : Action)
    (info : RecoverInfo σ) (st : LoopState σ) : Prop :=
  Relation.ReflTransGen (fun st next => ∃ header, Round io sb action tail.start st next header)
    (loopStart tail action info) st

/-- A state on the way round, from where the walk began. -/
def OnWay (sb : JbdSb bs) (startBlock : ℕ) (st : LoopState (List ℕ × σ)) : Prop :=
  ∃ m, OnLap sb startBlock m st

theorem onLap_loopStart (tail : JbdTail) (info : RecoverInfo σ) :
    OnLap sb tail.start 0 (loopStart tail action info.traced) := by
  constructor
  · rfl
  · unfold loopStart
    split <;> exact List.Sublist.refl []

/-- Every state reached is on the way. -/
theorem Reached.onWay {tail : JbdTail} {info : RecoverInfo σ}
    (h : Reached (traced io) sb tail action info.traced st) : OnWay sb tail.start st := by
  induction h with
  | refl => exact ⟨0, onLap_loopStart tail info⟩
  | tail _ hround ih =>
      obtain ⟨m, hlap⟩ := ih
      obtain ⟨header, hround⟩ := hround
      exact ⟨_, hround.onLap hlap⟩

/-! ## Not past the start -/

/-- None of the data blocks of `header` is the block the walk began at. -/
def KeepsStart (sb : JbdSb bs) (startBlock : ℕ) (st : LoopState σ) (header : Buf bs) : Prop :=
  ∀ k < dataBlocks sb header, (adv sb)^[k + 1] st.thisBlock ≠ startBlock

/-- Without meeting the start there is less than a round to go. -/
theorem KeepsStart.lt (h : KeepsStart sb startBlock st header) (hlap : OnLap sb startBlock m st)
    (hstart : InLog sb startBlock) (hm : m < logSize sb) :
    m + dataBlocks sb header < logSize sb := by
  by_contra hover
  refine h (logSize sb - 1 - m) (by omega) ?_
  rw [hlap.position, ← Function.iterate_add_apply,
    show logSize sb - 1 - m + 1 + m = logSize sb by omega]
  exact Circular.iterate_size hstart

/-- **The loop is back at the start after a round at the latest**, `m` blocks of it behind. -/
theorem loopFrom_lap (fuel : ℕ) (hstart : InLog sb startBlock) (hlap : OnLap sb startBlock m st)
    (hm : m < logSize sb) (hfuel : logSize sb ≤ m + fuel)
    (hkeeps : ∀ st', Relation.ReflTransGen
        (fun st next => ∃ header, Round (traced io) sb action startBlock st next header) st st' →
      ∀ header, WorksOn (traced io) action st' header → KeepsStart sb startBlock st' header) :
    ∃ res, loopFrom (traced io) sb action startBlock fuel st = some res ∧
      res.info.env.1.Sublist (List.iterate (adv sb) startBlock (logSize sb)) := by
  induction fuel generalizing m st with
  | zero => omega
  | succ fuel ih =>
      rcases loopFrom_round (traced io) sb action startBlock fuel st with
        ⟨next, header, hround, hloop⟩ | ⟨res, hlast, hloop⟩
      · have hlt := (hkeeps st .refl header hround.works).lt hlap hstart hm
        have hnext := hround.onLap hlap
        have hm' : m + (dataBlocks sb header + 1) ≠ logSize sb := by
          intro heq
          rw [heq] at hnext
          exact hround.notBack (hnext.position.trans (Circular.iterate_size hstart))
        rw [hloop]
        exact ih hnext (by omega) (by omega) fun st' hreach =>
          hkeeps st' (.head ⟨header, hround⟩ hreach)
      · obtain ⟨n, hn, hfetched⟩ := hlast.fetched hlap
        have hlt : m + n < logSize sb := by
          rcases hn with rfl | ⟨header, hworks, rfl⟩
          · exact hm
          · exact (hkeeps st .refl header hworks).lt hlap hstart hm
        exact ⟨res, hloop, hfetched.trans (iterate_sublist _ _ (by omega))⟩

/-- What a pass has fetched when it returns, it fetched along the way. -/
theorem loopFrom_fetched {fuel : ℕ} {res : IterateResult (List ℕ × σ)}
    (hway : OnWay sb startBlock st)
    (h : loopFrom (traced io) sb action startBlock fuel st = some res) :
    ∃ n, res.info.env.1.Sublist (List.iterate (adv sb) startBlock n) := by
  induction fuel generalizing st with
  | zero => exact nomatch h
  | succ fuel ih =>
      obtain ⟨m, hlap⟩ := hway
      rcases loopFrom_round (traced io) sb action startBlock fuel st with
        ⟨next, header, hround, hloop⟩ | ⟨res', hlast, hloop⟩
      · exact ih ⟨_, hround.onLap hlap⟩ (hloop ▸ h)
      · obtain ⟨n, -, hfetched⟩ := hlast.fetched hlap
        obtain rfl := Option.some.inj (h.symm.trans hloop)
        exact ⟨_, hfetched⟩

/-- A pass that has something to do is its loop; what it adds to the state of recovery are the
    bounds of the log. -/
theorem jbdIterateLog_eq_loopFrom (io : LogAccess bs σ) (sb : JbdSb bs) (tail : JbdTail)
    (action : Action) (fuel : ℕ) (info : RecoverInfo σ)
    (hwork : ¬ (action ≠ .scan ∧ info.transCnt = 0)) :
    (loopFrom io sb action tail.start fuel (loopStart tail action info) = none ∧
      jbdIterateLog io sb tail action fuel info = none) ∨
    ∃ res r info', loopFrom io sb action tail.start fuel (loopStart tail action info) = some res ∧
      jbdIterateLog io sb tail action fuel info = some (r, info') ∧ info'.env = res.info.env := by
  unfold jbdIterateLog loopFrom loopStart
  rw [if_neg hwork]
  dsimp only
  cases jbdIterateLogLoop io sb action tail.start fuel tail.start tail.sequence
      (if action = .scan then { info with transCnt := 0, revokeBlockCnt := 0 } else info) with
  | none => exact .inl ⟨rfl, rfl⟩
  | some res =>
      refine .inr ⟨res, ?_⟩
      dsimp only
      split
      · exact ⟨_, _, rfl, rfl, rfl⟩
      · exact ⟨_, _, rfl, rfl, rfl⟩

/-- A block of a journal the loader let through lies in the journal file. -/
theorem jbdGeometryOk.block_le {tail : JbdTail} {inodeSize p : ℕ}
    (h : jbdGeometryOk sb tail inodeSize) (hp : p < sb.maxlen) : (p + 1) * bs ≤ inodeSize := by
  simp only [jbdGeometryOk, not_or, not_lt] at h
  calc (p + 1) * bs ≤ inodeSize / bs * bs := Nat.mul_le_mul_right _ (hp.trans_le h.2.1)
    _ ≤ inodeSize := Nat.div_mul_le_self _ _

/-- **A pass over the log stays in it, and ends unless it is carried past its start.** For every
    journal the loader lets through and whatever its blocks hold: the walks over tags and records
    stay inside their block, and every block fetched lies in the journal file, on the way and when
    the pass returns. If the walk begins in the log area and no descriptor block it works on counts
    the start among its data blocks, the pass returns after no more blocks than the log has. -/
theorem jbdIterateLog_ends (io : LogAccess bs σ) (sb : JbdSb bs) (tail : JbdTail)
    (inodeSize : ℕ) (action : Action) (info : RecoverInfo σ)
    (hgeom : jbdGeometryOk sb tail inodeSize) :
    (∀ b : Buf bs, checkedDescriptorTags sb b = some (descriptorTags sb b) ∧
      checkedRevokeEntries sb b = some (revokeEntries sb b)) ∧
    (∀ st, Reached (traced io) sb tail action info.traced st →
      ∀ p ∈ st.info.env.1, (p + 1) * bs ≤ inodeSize) ∧
    (∀ fuel r info', jbdIterateLog (traced io) sb tail action fuel info.traced = some (r, info') →
      ∀ p ∈ info'.env.1, (p + 1) * bs ≤ inodeSize) ∧
    (InLog sb tail.start →
      (∀ st header, Reached (traced io) sb tail action info.traced st →
        WorksOn (traced io) action st header → KeepsStart sb tail.start st header) →
      ∃ r info',
        jbdIterateLog (traced io) sb tail action (logSize sb) info.traced = some (r, info') ∧
        info'.env.1.length ≤ logSize sb ∧ ∀ p ∈ info'.env.1, InLog sb p) := by
  have hstart : tail.start < sb.maxlen := by
    simp only [jbdGeometryOk, not_or, not_le] at hgeom
    exact hgeom.2.2.2
  have hidle (fuel : ℕ) (h : action ≠ .scan ∧ info.traced.transCnt = 0) :
      jbdIterateLog (traced io) sb tail action fuel info.traced = some (none, info.traced) :=
    if_pos h
  refine ⟨fun b => ⟨checkedDescriptorTags_eq sb b, checkedRevokeEntries_eq sb b⟩, ?_, ?_, ?_⟩
  · intro st hreach p hp
    obtain ⟨m, hlap⟩ := hreach.onWay
    exact hgeom.block_le (mem_lt_of_sublist hstart hlap.fetched p hp)
  · intro fuel r info' hres p hp
    by_cases hwork : action ≠ .scan ∧ info.traced.transCnt = 0
    · rw [hidle fuel hwork, Option.some.injEq, Prod.mk.injEq] at hres
      rw [← hres.2] at hp
      exact absurd hp List.not_mem_nil
    · rcases jbdIterateLog_eq_loopFrom (traced io) sb tail action fuel info.traced hwork with
        ⟨-, hnone⟩ | ⟨res, r', info'', hloop, hsome, henv⟩
      · rw [hnone] at hres
        exact nomatch hres
      · rw [hsome, Option.some.injEq, Prod.mk.injEq] at hres
        rw [← hres.2, henv] at hp
        obtain ⟨n, hfetched⟩ := loopFrom_fetched ⟨0, onLap_loopStart tail info⟩ hloop
        exact hgeom.block_le (mem_lt_of_sublist hstart hfetched p hp)
  · intro hin hkeeps
    by_cases hwork : action ≠ .scan ∧ info.traced.transCnt = 0
    · exact ⟨_, _, hidle _ hwork, Nat.zero_le _, fun p hp => absurd hp List.not_mem_nil⟩
    · have hsize : 0 < logSize sb := by
        have := sb.first_lt
        unfold logSize
        omega
      obtain ⟨res, hloop, hfetched⟩ := loopFrom_lap (logSize sb) hin
        (onLap_loopStart tail info) hsize (by omega)
        fun st' hreach header hworks => hkeeps st' header hreach hworks
      rcases jbdIterateLog_eq_loopFrom (traced io) sb tail action (logSize sb) info.traced hwork with
        ⟨hnone, -⟩ | ⟨res', r', info'', hloop', hsome, henv⟩
      · rw [hloop] at hnone
        exact nomatch hnone
      · obtain rfl := Option.some.inj (hloop.symm.trans hloop')
        rw [← henv] at hfetched
        refine ⟨r', info'', hsome, ?_, fun p hp => ?_⟩
        · simpa using hfetched.length_le
        · obtain ⟨k, -, rfl⟩ := List.mem_iterate.mp (hfetched.subset hp)
          exact hin.iterate k

/-! ## A log that is walked past its start -/

/-- The blocks of a log as they stand. -/
def quietLog (log : ℕ → Buf bs) : LogAccess bs Unit where
  getHeader := fun _ p s => (if p = 0 then .error .ENOSPC else .ok (log p), s)
  getData := fun p s => (if p = 0 then .error .ENOSPC else .ok (log p), s)
  replay := fun _ _ _ s => (none, s)
  allocRevokeEntry := fun s => (true, s)

/-- A journal of three blocks of 1 KiB, two of them log. -/
def shortSb : JbdSb 1024 where
  blocktype := JBD_SUPERBLOCK_V2
  maxlen := 3
  first := 1
  featureIncompat := fun _ => false
  uuid := zeros UUID_SIZE
  verified := verified_v2
  first_lt := by decide
  block_size := least_block
  block_size_lt := least_block_lt

/-- A revoke block without records. -/
def emptyRevoke : Buf 1024 := set32 (setHeader (zeros 1024) JBD_REVOKE_BLOCK 7) 12 16

/-- A descriptor block with one tag. -/
def oneTag : Buf 1024 :=
  putBE 2 (setHeader (zeros 1024) JBD_DESCRIPTOR_BLOCK 7) 18 (JBD_FLAG_SAME_UUID + JBD_FLAG_LAST_TAG)

/-- The walk begins at a revoke block; the descriptor block behind it counts that block as data. -/
def jumpingLog (p : ℕ) : Buf 1024 := if p = 1 then emptyRevoke else oneTag

/-- The log ends behind its revoke block. -/
def endingLog (p : ℕ) : Buf 1024 := if p = 1 then emptyRevoke else zeros 1024

def freshInfo : RecoverInfo Unit := ⟨0, 0, 0, 0, 0, 0, fun _ => none, none, ()⟩

theorem emptyRevoke_header : HeaderIs emptyRevoke JBD_REVOKE_BLOCK 7 := by
  constructor <;> decide +kernel

theorem oneTag_header : HeaderIs oneTag JBD_DESCRIPTOR_BLOCK 7 := by
  constructor <;> decide +kernel

theorem descriptorTags_oneTag : (descriptorTags shortSb oneTag).length = 1 := by decide +kernel

/-- A round of the scan over a log as it stands. -/
theorem jbdIterateLogLoop_scan {sb : JbdSb bs} {log : ℕ → Buf bs} {p id q id' blocktype : ℕ}
    {info info' : RecoverInfo Unit} (hp : p ≠ 0) (hheader : HeaderIs (log p) blocktype id)
    (hstep : jbdProcessBlock (quietLog log) sb .scan (log p) p id info
      = ⟨none, false, q, id', info'⟩)
    (hne : adv sb q ≠ startBlock) (fuel : ℕ) :
    jbdIterateLogLoop (quietLog log) sb .scan startBlock (fuel + 1) p id info
      = jbdIterateLogLoop (quietLog log) sb .scan startBlock fuel (adv sb q) id' info' := by
  have hget : (quietLog log).getHeader .scan p info.env = (.ok (log p), info.env) := by
    simp [quietLog, hp]
  rw [jbdIterateLogLoop, if_neg (fun h => h.1 rfl), hget]
  simp only [hheader.magic, hheader.sequence, ne_eq, not_true_eq_false, if_false, hstep, wrap_succ,
    Bool.false_eq_true, false_or, if_neg hne]

/-- The scan goes from the descriptor block to itself. -/
theorem jbdIterateLogLoop_jumping (fuel : ℕ) (info : RecoverInfo Unit) :
    jbdIterateLogLoop (quietLog jumpingLog) shortSb .scan 1 fuel 2 7 info = none := by
  induction fuel with
  | zero => rfl
  | succ fuel ih =>
      have hstep : jbdProcessBlock (quietLog jumpingLog) shortSb .scan (jumpingLog 2) 2 7 info
          = ⟨none, false, 1, 7, info⟩ := by
        have hcsum : jbdVerifyMetaCsum shortSb oneTag = true := by decide +kernel
        rw [show jumpingLog 2 = oneTag from rfl, jbdProcessBlock, if_pos oneTag_header.blocktype,
          hcsum, Bool.not_true, if_neg Bool.false_ne_true, if_neg (by decide),
          jbdIterateBlockTable_eq_foldl, foldl_jbdDisplayBlockTags, descriptorTags_oneTag]
        rfl
      have hheader : HeaderIs (jumpingLog 2) JBD_DESCRIPTOR_BLOCK 7 := oneTag_header
      have hne : adv shortSb 1 ≠ 1 := by decide
      exact (jbdIterateLogLoop_scan two_ne_zero hheader hstep hne fuel).trans ih

/-- **The scan need not end**: a descriptor block that counts the start among its data blocks
    carries the walk past it, here back to that descriptor block for ever. -/
theorem jbdIterateLog_jumping : jbdGeometryOk shortSb ⟨1, 7⟩ 3072 ∧
    ∀ fuel, jbdIterateLog (quietLog jumpingLog) shortSb ⟨1, 7⟩ .scan fuel freshInfo = none := by
  refine ⟨by decide, fun fuel => ?_⟩
  have hloop : jbdIterateLogLoop (quietLog jumpingLog) shortSb .scan 1 fuel 1 7
      { freshInfo with transCnt := 0, revokeBlockCnt := 0 } = none := by
    cases fuel with
    | zero => rfl
    | succ fuel =>
        have hcsum : jbdVerifyMetaCsum shortSb emptyRevoke = true := by decide +kernel
        have hstep : jbdProcessBlock (quietLog jumpingLog) shortSb .scan (jumpingLog 1) 1 7
            { freshInfo with transCnt := 0, revokeBlockCnt := 0 }
            = ⟨none, false, 1, 7, { freshInfo with transCnt := 0, revokeBlockCnt := 1 }⟩ := by
          rw [show jumpingLog 1 = emptyRevoke from rfl, jbdProcessBlock,
            emptyRevoke_header.blocktype, if_neg (by decide), if_neg (by decide), if_pos rfl, hcsum,
            Bool.not_true, if_neg Bool.false_ne_true, if_pos rfl]
        have hheader : HeaderIs (jumpingLog 1) JBD_REVOKE_BLOCK 7 := emptyRevoke_header
        have hne : adv shortSb 1 ≠ 1 := by decide
        exact (jbdIterateLogLoop_scan one_ne_zero hheader hstep hne fuel).trans
          (jbdIterateLogLoop_jumping fuel _)
  rw [jbdIterateLog, if_neg fun h => h.1 rfl]
  dsimp only
  rw [if_pos rfl, hloop]

/-- The scan of the log that ends behind its first block. -/
theorem jbdIterateLog_ends_short : ∃ r info',
    jbdIterateLog (traced (quietLog endingLog)) shortSb ⟨1, 7⟩ .scan 2 freshInfo.traced
      = some (r, info') ∧ info'.env.1.length ≤ 2 ∧ ∀ p ∈ info'.env.1, InLog shortSb p := by
  refine (jbdIterateLog_ends (quietLog endingLog) shortSb ⟨1, 7⟩ 3072 .scan freshInfo
    (by decide)).2.2.2 (by decide) ?_
  intro st header _ hworks
  have hnone : dataBlocks shortSb emptyRevoke = 0 := if_neg fun h => by
    rw [emptyRevoke_header.blocktype] at h
    exact absurd h.1 (by decide)
  have hfetched := hworks.fetched
  have hmagic := hworks.magic
  simp only [traced, quietLog] at hfetched
  split at hfetched
  · exact nomatch hfetched
  · obtain rfl := Except.ok.inj hfetched
    unfold endingLog at hmagic ⊢
    split
    · intro k hk
      rw [hnone] at hk
      exact absurd hk (Nat.not_lt_zero k)
    · next hne =>
        rw [if_neg hne] at hmagic
        exact absurd hmagic (by decide +kernel)

end Jbd
